import DeclTree.Proofs.Header.ExpressionText

namespace DeclTree.Header

open Rendering Text

structure Word where
  text : String
  ne_nil : text.toList ≠ []
  all_wordChar : text.toList.all wordChar

def Word.chars (word : Word) : List Char := word.text.toList

structure Declarator where
  pointers : Nat
  name : Word
  sizes : List (Expression Word)

inductive Aggregate
  | struct
  | union
  deriving DecidableEq

inductive Members
  | nil
  | named (type : Word) (declarator : Declarator) (rest : Members)
  | inline (kind : Aggregate) (name : Option Word) (body : Members) (declarator : Declarator)
    (rest : Members)

structure Schema where
  kind : Aggregate
  name : Option Word
  members : Members

namespace Aggregate

def keyword : Aggregate → String
  | struct => "struct"
  | union => "union"

def payload (members : List NodeId) : Aggregate → Payload
  | struct => .struct members
  | union => .union members

end Aggregate

section Describes

variable (tree : Tree) (options : Options)

def DescribesSize (id : NodeId) (size : Expression Word) : Prop :=
  ∃ e : Expression Atom, e.Describes tree id ∧ (options.tagComments = false ∨ tree.Tagless id) ∧
    e.map Atom.text = size.map Word.text

structure Declarator.Describes (id type : NodeId) (usage : TypeUsage) (text : Option String)
    (declarator : Declarator) : Prop where
  declaration : ∃ initial,
    Plain tree options id (.declaration type initial) (some declarator.name.text)
  typeUsage : Plain tree options type (.typeUsage usage) text
  pointers : usage.pointerCount = declarator.pointers
  sizes : List.Forall₂ (DescribesSize tree options) usage.arraySizes declarator.sizes

inductive Members.Describes : List NodeId → Members → Prop
  | nil : Describes [] .nil
  | named {id type : NodeId} {ids : List NodeId} {usage : TypeUsage} {name : Word}
    {declarator : Declarator} {rest : Members} :
    Declarator.Describes tree options id type usage (some name.text) declarator →
    usage.inlineAggregate = none → Describes ids rest →
    Describes (id :: ids) (.named name declarator rest)
  | inline {id type aggregate : NodeId} {ids members : List NodeId} {usage : TypeUsage}
    {text : Option String} {kind : Aggregate} {name : Option Word} {body : Members}
    {declarator : Declarator} {rest : Members} :
    Declarator.Describes tree options id type usage text declarator →
    usage.inlineAggregate = some aggregate →
    Plain tree options aggregate (kind.payload members) (name.map Word.text) →
    Describes members body → Describes ids rest →
    Describes (id :: ids) (.inline kind name body declarator rest)

def Schema.Describes (id : NodeId) (schema : Schema) : Prop :=
  ∃ members, Plain tree options id (schema.kind.payload members) (schema.name.map Word.text) ∧
    Members.Describes tree options members schema.members

end Describes

def dimensions : List (Expression Word) → List Char
  | [] => []
  | size :: rest => '[' :: ((size.map Word.text).chars ++ ']' :: dimensions rest)

def Declarator.chars (declarator : Declarator) : List Char :=
  List.replicate declarator.pointers '*' ++ (declarator.name.chars ++ dimensions declarator.sizes)

def margin (indent : List Char) (level : Nat) : List Char := (List.replicate level indent).flatten

def Aggregate.heading (kind : Aggregate) : Option Word → List Char
  | some name => kind.keyword.toList ++ ' ' :: (name.chars ++ ['\n'])
  | none => kind.keyword.toList ++ ['\n']

def Aggregate.aliasLine (kind : Aggregate) : Option Word → List Char
  | some name => ['t', 'y', 'p', 'e', 'd', 'e', 'f', ' '] ++
    (kind.keyword.toList ++ ' ' :: (name.chars ++ ' ' :: (name.chars ++ [';', '\n'])))
  | none => []

def Members.chars (indent : List Char) (level : Nat) : Members → List Char
  | nil => []
  | named type declarator rest =>
    margin indent level ++ (type.chars ++ ' ' :: (declarator.chars ++ ';' :: '\n' ::
      rest.chars indent level))
  | inline kind name body declarator rest =>
    margin indent level ++ (kind.heading name ++ (margin indent level ++ '{' :: '\n' ::
      (body.chars indent (level + 1) ++ (margin indent level ++ '}' :: ' ' ::
        (declarator.chars ++ ';' :: '\n' :: rest.chars indent level)))))

def Schema.chars (indent : List Char) (schema : Schema) : List Char :=
  schema.kind.aliasLine schema.name ++ (schema.kind.heading schema.name ++ '{' :: '\n' ::
    (schema.members.chars indent 1 ++ ['}', ';', '\n', '\n']))

end DeclTree.Header
