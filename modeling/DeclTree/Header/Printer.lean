import DeclTree.Header.Options
import DeclTree.Rendering
import DeclTree.Tree

namespace DeclTree.Header

open Rendering

/-- How a node is rendered at a nesting depth and a level of indentation. Depth zero is the top
level of a header. -/
abbrev Renderer := NodeId → (depth level : Nat) → Rendering Unit

def indentation (options : Options) (level : Nat) : Rendering Unit :=
  repeated options.indent level

def atTop (depth : Nat) (r : Rendering Unit) : Rendering Unit := if depth = 0 then r else done ()

def parameters (inner : Renderer) (ids : List NodeId) (depth level : Nat) : Rendering Unit :=
  separated ", " (inner · (depth + 1) level) ids

def tagParameters (inner : Renderer) (depth level : Nat) : Payload → Rendering Unit
  | .tag (first :: rest) => do
    text "("
    parameters inner (first :: rest) depth level
    text ")"
  | _ => done ()

def tag (tree : Tree) (inner : Renderer) (id : NodeId) (depth level : Nat) : Rendering Unit := do
  let node ← orFault (tree.node id)
  text node.name
  tagParameters inner depth level node.payload

def tagComment (tree : Tree) (options : Options) (inner : Renderer) (node : Node)
    (depth level : Nat) : Rendering Unit :=
  if options.tagComments && !node.tags.isEmpty then do
    text "// "
    separated " " (tag tree inner · depth level) node.tags
    text "\n"
    indentation options level
  else done ()

def typedefLine (keyword : String) : Option String → Rendering Unit
  | some name => text ("typedef " ++ keyword ++ " " ++ name ++ " " ++ name ++ ";\n")
  | none => done ()

def heading (keyword : String) : Option String → Rendering Unit
  | some name => text (keyword ++ " " ++ name ++ "\n")
  | none => text (keyword ++ "\n")

def items (options : Options) (inner : Renderer) (ending : String) (ids : List NodeId)
    (depth level : Nat) : Rendering Unit :=
  ids.forM fun id => do
    indentation options level
    inner id depth level
    text ending

def braced (options : Options) (inner : Renderer) (keyword : String) (name : Option String)
    (ids : List NodeId) (ending : String) (depth level : Nat) : Rendering Unit := do
  atTop depth (typedefLine keyword name)
  heading keyword name
  indentation options level
  text "\x7b\n"
  items options inner ending ids (depth + 1) (level + 1)
  indentation options level
  text "\x7d"
  atTop depth (text ";\n\n")

def unit (wide : Bool) : String := if wide then "1ull" else "1u"

def storage (wide : Bool) : String := if wide then "unsigned long long int" else "unsigned int"

def masks (tree : Tree) (options : Options) (inner : Renderer) (wide : Bool)
    (depth level : Nat) : (bit : Nat) → List NodeId → Rendering Unit
  | _, [] => done ()
  | bit, id :: rest => do
    let flag ← orFault (tree.node id)
    tagComment tree options inner flag depth level
    text ("#define " ++ flag.name ++ " (" ++ unit wide ++ "<<" ++ toString bit ++ ")\n")
    masks tree options inner wide depth level (bit + 1) rest

def storageAlias (wide : Bool) : Option String → Rendering Unit
  | some name => text ("typedef " ++ storage wide ++ " " ++ name ++ ";\n\n")
  | none => done ()

def flags (tree : Tree) (options : Options) (inner : Renderer) (name : Option String)
    (bits : List NodeId) (depth level : Nat) : Rendering Unit := do
  masks tree options inner (options.isWide bits.length) (depth + 1) level 0 bits
  storageAlias (options.isWide bits.length) name

def dimension (inner : Renderer) (depth level : Nat) (size : NodeId) : Rendering Unit := do
  text "["
  inner size depth level
  text "]"

def initializer (inner : Renderer) (depth level : Nat) : Option NodeId → Rendering Unit
  | some id => do
    text " = "
    inner id (depth + 1) level
  | none => done ()

def declaration (tree : Tree) (inner : Renderer) (id : NodeId) (name : String)
    (initial : Option NodeId) (depth level : Nat) : Rendering Unit := do
  let slot ← orFault (tree.typeUsageOf id)
  inner slot.1 depth level
  text name
  slot.2.arraySizes.forM (dimension inner depth level)
  atTop depth do
    initializer inner depth level initial
    text ";\n"

def base (inner : Renderer) (name : String) (depth level : Nat) : Option NodeId → Rendering Unit
  | some aggregate => inner aggregate (depth + 1) level
  | none => text name

def typeUsage (inner : Renderer) (name : String) (usage : TypeUsage) (depth level : Nat) :
    Rendering Unit := do
  base inner name depth level usage.inlineAggregate
  text " "
  repeated "*" usage.pointerCount

def returned (inner : Renderer) (depth level : Nat) : Option NodeId → Rendering Unit
  | some type => inner type (depth + 1) level
  | none => text "void "

def procedureParameters (inner : Renderer) (depth level : Nat) : List NodeId → Rendering Unit
  | [] => text "void"
  | first :: rest => parameters inner (first :: rest) depth level

def procedure (inner : Renderer) (name : String) (returnType : Option NodeId)
    (ids : List NodeId) (depth level : Nat) : Rendering Unit := do
  returned inner depth level returnType
  text (name ++ "(")
  procedureParameters inner depth level ids
  text ");\n"

def nodeWith (tree : Tree) (options : Options) (inner : Renderer) : Renderer :=
  fun id depth level => do
    let node ← orFault (tree.node id)
    tagComment tree options inner node depth level
    match node.payload with
    | .identifier _ | .numericConstant | .stringConstant | .charConstant => text node.name
    | .unary op operand =>
      text ("(" ++ op.spelling)
      inner operand (depth + 1) level
      text ")"
    | .binary op left right =>
      text "("
      inner left depth level
      text (" " ++ op.spelling ++ " ")
      inner right (depth + 1) level
      text ")"
    | .struct members => braced options inner "struct" node.text members ";\n" depth level
    | .union members => braced options inner "union" node.text members ";\n" depth level
    | .enumeration constants => braced options inner "enum" node.text constants ",\n" depth level
    | .flags bits => flags tree options inner node.text bits depth level
    | .declaration _ initial => declaration tree inner id node.name initial depth level
    | .typeUsage usage => typeUsage inner node.name usage depth level
    | .tag _ => tag tree inner id depth level
    | .constant expression =>
      text ("#define " ++ node.name ++ " (")
      inner expression (depth + 1) level
      text ")\n"
    | .procedure returnType ids => procedure inner node.name returnType ids depth level

def nodeWithin (tree : Tree) (options : Options) : (fuel : Nat) → Renderer
  | 0 => fun _ _ _ => .fault .endless
  | fuel + 1 => nodeWith tree options (nodeWithin tree options fuel)

end DeclTree.Header
