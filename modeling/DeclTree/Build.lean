import DeclTree.Tree

namespace DeclTree

inductive Step
  | identifier (name : String)
  | numeric (text : String)
  | string (text : String)
  | char (text : String)
  | unary (op : UnaryOp) (operand : NodeId)
  | binary (op : BinaryOp) (left right : NodeId)
  | struct (name : Option String) (members : List NodeId)
  | union (name : Option String) (members : List NodeId)
  | enumeration (name : String) (constants : List String)
  | flags (name : String) (bits : List String)
  | namedType (name : String) (pointerCount : Nat) (arraySizes : List NodeId)
  | inlineType (aggregate : NodeId) (pointerCount : Nat) (arraySizes : List NodeId)
  | declaration (name : String) (type : NodeId) (initializer : Option NodeId)
  | tag (text : String) (parameters : List NodeId)
  | constant (name : String) (expression : NodeId)
  | procedure (name : String) (returnType : Option NodeId) (parameters : List NodeId)
  | bindIdentifier (id target : NodeId)
  | resolveType (id target : NodeId)
  | attachTags (id : NodeId) (tags : List NodeId)
  | pushRoot (id : NodeId)
  deriving DecidableEq

def NodeId.ofIndex (index : Nat) : Except Fault NodeId :=
  if index ≤ NodeId.max then .ok index else .error .tooManyNodes

namespace Tree

def push (tree : Tree) (payload : Payload) (text : Option String) :
    Except Fault (Tree × NodeId) := do
  let id ← NodeId.ofIndex tree.size
  return ({ tree with nodes := tree.nodes.push { payload, text } }, id)

def nodeToChange (tree : Tree) (id : NodeId) : Except Fault Node :=
  match tree.get? id with
  | some node => .ok node
  | none => .error (.outOfBounds tree.size id)

def replace (tree : Tree) (id : NodeId) (node : Node) : Tree :=
  { tree with nodes := tree.nodes.setIfInBounds id node }

def setNext (tree : Tree) (id next : NodeId) : Except Fault Tree := do
  let node ← tree.nodeToChange id
  return tree.replace id { node with next := some next }

/-- Chain the nodes of a list. The last one keeps the successor it has, and is never looked up. -/
def link (tree : Tree) : List NodeId → Except Fault Tree
  | a :: b :: rest => do
    let tree ← tree.setNext a b
    tree.link (b :: rest)
  | _ => .ok tree

def pushOwner (tree : Tree) (payload : List NodeId → Payload) (text : Option String)
    (list : List NodeId) : Except Fault (Tree × NodeId) := do
  let tree ← tree.link list
  tree.push (payload list) text

def pushIdentifiers (tree : Tree) : List String → Except Fault (Tree × List NodeId)
  | [] => .ok (tree, [])
  | name :: rest => do
    let (tree, id) ← tree.push (.identifier none) (some name)
    let (tree, ids) ← tree.pushIdentifiers rest
    return (tree, id :: ids)

def pushNames (tree : Tree) (payload : List NodeId → Payload) (text : String)
    (names : List String) : Except Fault (Tree × NodeId) := do
  let (tree, ids) ← tree.pushIdentifiers names
  tree.pushOwner payload (some text) ids

def bindIdentifier (tree : Tree) (id target : NodeId) : Except Fault Tree := do
  let node ← tree.nodeToChange id
  match node.payload with
  | .identifier _ => return tree.replace id { node with payload := .identifier (some target) }
  | _ => throw (.notBindable node.type)

def resolveType (tree : Tree) (id target : NodeId) : Except Fault Tree := do
  let node ← tree.nodeToChange id
  match node.payload with
  | .typeUsage usage =>
    return tree.replace id
      { node with payload := .typeUsage { usage with definition := some target } }
  | _ => throw (.notResolvable node.type)

def attachTags (tree : Tree) (id : NodeId) (tags : List NodeId) : Except Fault Tree := do
  let all := (← tree.nodeToChange id).tags ++ tags
  let tree ← tree.link all
  let node ← tree.nodeToChange id
  return tree.replace id { node with tags := all }

def pushRoot (tree : Tree) (id : NodeId) : Except Fault Tree := do
  let tree ← match tree.roots.getLast? with
    | some last => tree.setNext last id
    | none => pure tree
  return { tree with roots := tree.roots ++ [id] }

def added (result : Except Fault (Tree × NodeId)) : Except Fault (Tree × Option NodeId) :=
  result.map fun (tree, id) => (tree, some id)

def changed (result : Except Fault Tree) : Except Fault (Tree × Option NodeId) :=
  result.map fun tree => (tree, none)

def perform (tree : Tree) : Step → Except Fault (Tree × Option NodeId)
  | .identifier name => added (tree.push (.identifier none) (some name))
  | .numeric text => added (tree.push .numericConstant (some text))
  | .string text => added (tree.push .stringConstant (some text))
  | .char text => added (tree.push .charConstant (some text))
  | .unary op operand => added (tree.push (.unary op operand) (some op.spelling))
  | .binary op left right => added (tree.push (.binary op left right) (some op.spelling))
  | .struct name members => added (tree.pushOwner .struct name members)
  | .union name members => added (tree.pushOwner .union name members)
  | .enumeration name constants => added (tree.pushNames .enumeration name constants)
  | .flags name bits => added (tree.pushNames .flags name bits)
  | .namedType name pointerCount sizes =>
    added (tree.pushOwner (fun arraySizes => .typeUsage { pointerCount, arraySizes }) (some name)
      sizes)
  | .inlineType aggregate pointerCount sizes =>
    added (tree.pushOwner
      (fun arraySizes =>
        .typeUsage { pointerCount, arraySizes, inlineAggregate := some aggregate })
      none sizes)
  | .declaration name type initializer =>
    added (tree.push (.declaration type initializer) (some name))
  | .tag text parameters => added (tree.pushOwner .tag (some text) parameters)
  | .constant name expression => added (tree.push (.constant expression) (some name))
  | .procedure name returnType parameters =>
    added (tree.pushOwner (.procedure returnType) (some name) parameters)
  | .bindIdentifier id target => changed (tree.bindIdentifier id target)
  | .resolveType id target => changed (tree.resolveType id target)
  | .attachTags id tags => changed (tree.attachTags id tags)
  | .pushRoot id => changed (tree.pushRoot id)

def performAll (tree : Tree) : List Step → Except Fault Tree
  | [] => .ok tree
  | step :: rest => do
    let (tree, _) ← tree.perform step
    tree.performAll rest

def build (steps : List Step) : Except Fault Tree := ({} : Tree).performAll steps

end Tree

end DeclTree
