import DeclTree.Operator

namespace DeclTree

/-- The position of a node in the arena of its tree. A tree hands out positions of 32 bits; any
other names no node. -/
abbrev NodeId := Nat

def NodeId.max : Nat := 4294967295

inductive NodeType
  | identifier
  | numericConstant
  | stringConstant
  | charConstant
  | unaryOperator
  | binaryOperator
  | structDeclaration
  | unionDeclaration
  | enumDeclaration
  | flagsDeclaration
  | declaration
  | typeUsage
  | tag
  | constantDefinition
  | procedureHeader
  deriving DecidableEq

def NodeType.name : NodeType → String
  | .identifier => "Identifier"
  | .numericConstant => "NumericConstant"
  | .stringConstant => "StringConstant"
  | .charConstant => "CharConstant"
  | .unaryOperator => "UnaryOperator"
  | .binaryOperator => "BinaryOperator"
  | .structDeclaration => "StructDeclaration"
  | .unionDeclaration => "UnionDeclaration"
  | .enumDeclaration => "EnumDeclaration"
  | .flagsDeclaration => "FlagsDeclaration"
  | .declaration => "Declaration"
  | .typeUsage => "TypeUsage"
  | .tag => "Tag"
  | .constantDefinition => "ConstantDefinition"
  | .procedureHeader => "ProcedureHeader"

structure TypeUsage where
  pointerCount : Nat := 0
  arraySizes : List NodeId := []
  inlineAggregate : Option NodeId := none
  definition : Option NodeId := none
  deriving DecidableEq

inductive Payload
  | identifier (declaration : Option NodeId)
  | numericConstant
  | stringConstant
  | charConstant
  | unary (op : UnaryOp) (operand : NodeId)
  | binary (op : BinaryOp) (left right : NodeId)
  | struct (members : List NodeId)
  | union (members : List NodeId)
  | enumeration (constants : List NodeId)
  | flags (bits : List NodeId)
  | declaration (type : NodeId) (initializer : Option NodeId)
  | typeUsage (usage : TypeUsage)
  | tag (parameters : List NodeId)
  | constant (expression : NodeId)
  | procedure (returnType : Option NodeId) (parameters : List NodeId)
  deriving DecidableEq

namespace Payload

def type : Payload → NodeType
  | identifier _ => .identifier
  | numericConstant => .numericConstant
  | stringConstant => .stringConstant
  | charConstant => .charConstant
  | unary .. => .unaryOperator
  | binary .. => .binaryOperator
  | struct _ => .structDeclaration
  | union _ => .unionDeclaration
  | enumeration _ => .enumDeclaration
  | flags _ => .flagsDeclaration
  | declaration .. => .declaration
  | typeUsage _ => .typeUsage
  | tag _ => .tag
  | constant _ => .constantDefinition
  | procedure .. => .procedureHeader

def children : Payload → List NodeId
  | identifier _ | numericConstant | stringConstant | charConstant => []
  | unary _ operand => [operand]
  | binary _ left right => [left, right]
  | struct members | union members => members
  | enumeration constants => constants
  | flags bits => bits
  | declaration type initializer => type :: initializer.toList
  | typeUsage usage => usage.arraySizes ++ usage.inlineAggregate.toList
  | tag parameters => parameters
  | constant expression => [expression]
  | procedure returnType parameters => returnType.toList ++ parameters

end Payload

structure Node where
  payload : Payload
  text : Option String
  next : Option NodeId := none
  tags : List NodeId := []
  deriving DecidableEq

namespace Node

def type (node : Node) : NodeType := node.payload.type

def name (node : Node) : String := node.text.getD ""

theorem name_of_mem_text {node : Node} {s : String} (h : s ∈ node.text) : node.name = s := by
  rw [name, Option.mem_def.mp h, Option.getD_some]

def isExpression (node : Node) : Bool :=
  match node.type with
  | .identifier | .numericConstant | .stringConstant | .charConstant
  | .unaryOperator | .binaryOperator => true
  | _ => false

end Node

end DeclTree
