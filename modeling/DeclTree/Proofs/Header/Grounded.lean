import DeclTree.Proofs.Grounded
import DeclTree.Proofs.Header.Fuel

namespace DeclTree

theorem bind_ne_error {α β : Type} {x : Except Fault α} {k : α → Except Fault β} {f : Fault}
    (hx : x ≠ .error f) (hk : ∀ a, x = .ok a → k a ≠ .error f) : (x >>= k) ≠ .error f := by
  cases x with
  | error g =>
    rintro ⟨⟩
    exact hx rfl
  | ok a => exact hk a rfl

namespace Tree

variable {tree : Tree} {id : NodeId}

theorem node_ne_endless : tree.node id ≠ .error .endless := by
  intro h
  cases (node_eq_error_iff.mp h).2

theorem typeUsageOf_ne_endless : tree.typeUsageOf id ≠ .error .endless := by
  refine bind_ne_error node_ne_endless fun node _ => ?_
  cases node.payload with
  | declaration type initial =>
    refine bind_ne_error node_ne_endless fun slot _ => ?_
    cases slot.payload <;> nofun
  | _ => nofun

end Tree

namespace Header

open Rendering Relation

variable {tree : Tree} {options : Options} {id : NodeId} {fuel more : Nat}

theorem nodeWithin_of_grounded (h : tree.Grounded options.tagComments id)
    (hfuel : (tree.below (tree.Edge options.tagComments) id).card < fuel) (hmore : fuel ≤ more) (d l : Nat) :
    nodeWithin tree options more id d l = nodeWithin tree options fuel id d l := by
  induction fuel generalizing id more d l with
  | zero => exact absurd hfuel (Nat.not_lt_zero _)
  | succ fuel ih =>
    obtain ⟨more, rfl⟩ : ∃ m, more = m + 1 := ⟨more - 1, by omega⟩
    refine (eq_compatible options).nodeWith ⟨fun _ _ _ _ => rfl, fun _ _ _ _ _ _ _ _ _ => rfl, ?_⟩ rfl
    rintro c hc d l _ _ ⟨⟩
    have hlt := h.card_below_lt hc
    exact ih (h.path hc.to_reflTransGen) (by omega) (by omega) d l

theorem ends_compatible (options : Options) :
    Compatible options Eq fun r _ => r.outcome ≠ .error .endless := by
  refine compatible_of_bind nofun (fun _ => nofun) fun {r r' s s'} h h' => ?_
  rw [outcome_bind]
  cases hr : r.outcome with
  | error f => rwa [hr] at h
  | ok value => exact h'

theorem ends_of_grounded (h : tree.Grounded options.tagComments id)
    (hfuel : (tree.below (tree.Edge options.tagComments) id).card < fuel) (d l : Nat) :
    (nodeWithin tree options fuel id d l).outcome ≠ .error .endless := by
  induction fuel generalizing id d l with
  | zero => exact absurd hfuel (Nat.not_lt_zero _)
  | succ fuel ih =>
    have hbelow : AgreeBelow tree options Eq (fun r _ => r.outcome ≠ .error .endless)
        (nodeWithin tree options fuel) (nodeWithin tree options fuel) id := by
      constructor
      · intro c _ f hf hendless
        cases hendless
        exact Tree.node_ne_endless hf
      · intro c _ node type initial _ _ f hf hendless
        cases hendless
        exact Tree.typeUsageOf_ne_endless hf
      · rintro c hc d l _ _ ⟨⟩
        have hlt := h.card_below_lt hc
        exact ih (h.path hc.to_reflTransGen) (by omega) d l
    exact (ends_compatible options).nodeWith hbelow rfl

theorem card_below_lt_fuelFor (h : tree.Grounded options.tagComments id) (room : Option Nat) :
    (tree.below (tree.Edge options.tagComments) id).card < fuelFor tree room := by
  have hsize := h.card_below_lt_size
  have hfuel := size_lt_fuelFor tree room
  omega

theorem render_ends (h : tree.Grounded options.tagComments id) (room : Option Nat) :
    (render tree options room id false).outcome ≠ .error .endless :=
  ends_of_grounded h (card_below_lt_fuelFor h room) 0 0

end Header

end DeclTree
