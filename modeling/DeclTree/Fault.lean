import DeclTree.Node

namespace DeclTree

inductive Fault
  | foreignNode (id : NodeId)
  | notDeclaration (id : NodeId) (type : NodeType)
  | typeSlot (declaration : NodeId) (type : NodeType)
  | outOfBounds (size index : Nat)
  | notBindable (type : NodeType)
  | notResolvable (type : NodeType)
  | tooManyNodes
  /-- A walk along a cycle of nodes has no end. -/
  | endless
  deriving DecidableEq

namespace Fault

def idText (id : NodeId) : String := "NodeId(" ++ toString id ++ ")"

def message : Fault → String
  | foreignNode id => "node " ++ idText id ++ " does not belong to this tree"
  | notDeclaration id type =>
    "node " ++ idText id ++ " is a " ++ type.name ++ ", expected a declaration"
  | typeSlot declaration type =>
    "declaration " ++ idText declaration ++ " has a " ++ type.name ++ " in its type slot"
  | outOfBounds size index =>
    "index out of bounds: the len is " ++ toString size ++ " but the index is " ++ toString index
  | notBindable type => "cannot bind a " ++ type.name ++ " to a declaration"
  | notResolvable type => "cannot resolve a " ++ type.name ++ " as a type"
  | tooManyNodes => "syntax tree exceeds " ++ toString NodeId.max ++ " nodes"
  | endless => "the walk along a cycle of nodes does not end"

end Fault

theorem bind_eq_ok {α β : Type} {x : Except Fault α} {next : α → Except Fault β} {b : β} :
    (x >>= next) = .ok b ↔ ∃ a, x = .ok a ∧ next a = .ok b := by
  cases x with
  | error f => exact ⟨nofun, nofun⟩
  | ok a =>
    constructor
    · intro h
      exact ⟨a, rfl, h⟩
    · rintro ⟨_, ⟨⟩, h⟩
      exact h

theorem exists_bind_eq_ok {α β : Type} {x : Except Fault α} {next : α → Except Fault β} {a : α}
    (hx : x = .ok a) (h : ∃ b, next a = .ok b) : ∃ b, (x >>= next) = .ok b := by
  obtain ⟨b, hb⟩ := h
  exact ⟨b, bind_eq_ok.mpr ⟨a, hx, hb⟩⟩

theorem map_eq_ok {α β : Type} {x : Except Fault α} {f : α → β} {b : β} :
    x.map f = .ok b ↔ ∃ a, x = .ok a ∧ f a = b := by
  cases x <;> simp [Except.map]

theorem map_eq_error {α β : Type} {x : Except Fault α} {f : α → β} {fault : Fault} :
    x.map f = .error fault ↔ x = .error fault := by
  cases x <;> simp [Except.map]

theorem mapM_cons_eq_ok {α β : Type} {f : α → Except Fault β} {x : α} {xs : List α}
    {ys : List β} :
    (x :: xs).mapM f = .ok ys ↔ ∃ y rest, f x = .ok y ∧ xs.mapM f = .ok rest ∧ ys = y :: rest := by
  simp only [List.mapM_cons, bind_eq_ok, pure, Except.pure, Except.ok.injEq]
  constructor
  · rintro ⟨y, hy, rest, hrest, rfl⟩
    exact ⟨y, rest, hy, hrest, rfl⟩
  · rintro ⟨y, rest, hy, hrest, rfl⟩
    exact ⟨y, hy, rest, hrest, rfl⟩

end DeclTree
