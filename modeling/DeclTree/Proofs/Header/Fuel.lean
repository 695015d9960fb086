import Mathlib.Data.Finset.Prod
import Mathlib.Data.Fintype.Card
import DeclTree.Header.Emit
import DeclTree.Proofs.Collections
import DeclTree.Proofs.Header.Congruence
import DeclTree.Proofs.Outcome

namespace DeclTree.Header

open Rendering Relation

/-- `r` is `r'` or stops for want of fuel on the way. -/
def Within (r r' : Rendering Unit) : Prop :=
  (r.outcome = .error .endless ∧ ∃ rest, r'.written = r.written ++ rest) ∨
    (r.outcome = r'.outcome ∧ r.written = r'.written)

namespace Within

variable {r r' r'' s s' : Rendering Unit}

theorem refl (r : Rendering Unit) : Within r r := .inr ⟨rfl, rfl⟩

theorem of_endless (r : Rendering Unit) : Within (.fault .endless) r :=
  .inl ⟨rfl, r.written, String.empty_append.symm⟩

theorem written (h : Within r r') : ∃ rest, r'.written = r.written ++ rest := by
  obtain ⟨_, hrest⟩ | ⟨_, hw⟩ := h
  · exact hrest
  · exact ⟨"", by rw [hw, String.append_empty]⟩

theorem eq_of_ends (h : Within r r') (hends : r.outcome ≠ .error .endless) :
    r.outcome = r'.outcome ∧ r.written = r'.written := by
  obtain ⟨ho, _⟩ | he := h
  · exact absurd ho hends
  · exact he

theorem trans (h : Within r r') (h' : Within r' r'') : Within r r'' := by
  obtain ⟨ho, hrest⟩ | ⟨ho, hw⟩ := h
  · obtain ⟨a, ha⟩ := hrest
    obtain ⟨b, hb⟩ := h'.written
    exact .inl ⟨ho, a ++ b, by rw [hb, ha, String.append_assoc]⟩
  · rw [Within, ho, hw]
    exact h'

theorem bind (h : Within r r') (h' : Within s s') : Within (do r; s) (do r'; s') := by
  obtain ⟨ho, rest, hrest⟩ | ⟨ho, hw⟩ := h
  · left
    refine ⟨by rw [outcome_bind, ho]; rfl, ?_⟩
    rw [written_bind_of_error ho]
    cases hr' : r'.outcome with
    | error f => exact ⟨rest, by rw [written_bind_of_error hr', hrest]⟩
    | ok value =>
      exact ⟨rest ++ s'.written, by rw [written_bind_of_ok hr', hrest, String.append_assoc]⟩
  · cases hr : r.outcome with
    | error f =>
      right
      rw [outcome_bind, outcome_bind, ← ho, hr, written_bind_of_error hr,
        written_bind_of_error (ho.symm.trans hr), hw]
      exact ⟨rfl, rfl⟩
    | ok value =>
      have hr' := ho.symm.trans hr
      obtain ⟨hs, rest, hrest⟩ | ⟨hs, hsw⟩ := h'
      · left
        rw [outcome_bind, hr, written_bind_of_ok hr, written_bind_of_ok hr', hw]
        exact ⟨hs, rest, by rw [hrest, String.append_assoc]⟩
      · right
        rw [outcome_bind, outcome_bind, hr, hr', written_bind_of_ok hr, written_bind_of_ok hr',
          hw, hsw]
        exact ⟨hs, rfl⟩

theorem toText_eq (h : Within r r') (hends : r.toText ≠ .error .endless) :
    r'.toText = r.toText := by
  have hr : r.outcome ≠ .error .endless := fun he => hends (toText_eq_error_iff.mpr he)
  obtain ⟨ho, hw⟩ := h.eq_of_ends hr
  rw [Rendering.toText_eq, Rendering.toText_eq, ho, hw]

end Within

theorem within_compatible (options : Options) : Compatible options Eq Within :=
  compatible_of_bind (.refl _) (fun _ => .refl _) .bind

variable {tree : Tree} {options : Options}

theorem nodeWithin_succ (fuel : Nat) (id : NodeId) (d l : Nat) :
    Within (nodeWithin tree options fuel id d l) (nodeWithin tree options (fuel + 1) id d l) := by
  induction fuel generalizing id d l with
  | zero => exact .of_endless _
  | succ fuel ih =>
    apply (within_compatible options).nodeWith _ rfl
    refine ⟨fun _ _ _ _ => .refl _, fun _ _ _ _ _ _ _ _ _ => .refl _, ?_⟩
    rintro c - d l _ _ ⟨⟩
    exact ih c d l

theorem nodeWithin_mono {fuel more : Nat} (h : fuel ≤ more) (id : NodeId) (d l : Nat) :
    Within (nodeWithin tree options fuel id d l) (nodeWithin tree options more id d l) := by
  induction h with
  | refl => exact .refl _
  | step _ ih => exact ih.trans (nodeWithin_succ _ id d l)

theorem outcome_indentation (options : Options) (level : Nat) :
    (indentation options level).outcome = .ok () := by
  induction level with
  | zero => rfl
  | succ level ih => exact ih

theorem outcome_compatible (options : Options) :
    Compatible options (fun p p' => p.1 = 0 ↔ p'.1 = 0) fun r r' => r.outcome = r'.outcome where
  done := rfl
  text _ := rfl
  bind h h' := by rw [outcome_bind, outcome_bind, h, h']
  top h := h
  deeper _ := by simp
  indented _ := by simp
  indentation _ := by rw [outcome_indentation, outcome_indentation]

theorem nodeWith_outcome {inner inner' : Renderer}
    (h : ∀ id {d d' : Nat} (l l' : Nat), (d = 0 ↔ d' = 0) →
      (inner id d l).outcome = (inner' id d' l').outcome)
    (id : NodeId) {d d' : Nat} (l l' : Nat) (hd : d = 0 ↔ d' = 0) :
    (nodeWith tree options inner id d l).outcome =
      (nodeWith tree options inner' id d' l').outcome := by
  apply (outcome_compatible options).nodeWith _ hd
  refine ⟨fun _ _ _ _ => rfl, fun _ _ _ _ _ _ _ _ _ => rfl, ?_⟩
  intro c _ d l d' l' hp
  exact h c l l' hp

theorem nodeWithin_outcome_place (fuel : Nat) (id : NodeId) {d d' : Nat} (l l' : Nat)
    (hd : d = 0 ↔ d' = 0) :
    (nodeWithin tree options fuel id d l).outcome =
      (nodeWithin tree options fuel id d' l').outcome := by
  induction fuel generalizing id d d' l l' with
  | zero => rfl
  | succ fuel ih => exact nodeWith_outcome (fun c _ _ l l' h => ih c l l' h) id l l' hd

noncomputable def ended (tree : Tree) (options : Options) (fuel : Nat) : Finset (NodeId × Bool) :=
  open scoped Classical in
  (Finset.range tree.size ×ˢ Finset.univ).filter fun call =>
    (nodeWithin tree options (fuel + 1) call.1 call.2.toNat 0).outcome ≠ .error .endless

theorem mem_ended {fuel : Nat} {id : NodeId} {top : Bool} :
    (id, top) ∈ ended tree options fuel ↔ id < tree.size ∧
      (nodeWithin tree options (fuel + 1) id top.toNat 0).outcome ≠ .error .endless := by
  simp [ended]

theorem card_ended_le (fuel : Nat) : (ended tree options fuel).card ≤ 2 * tree.size := by
  refine (Finset.card_filter_le _ _).trans ?_
  rw [Finset.card_product, Finset.card_range, Finset.card_univ, Fintype.card_bool, Nat.mul_comm]

theorem ended_subset_succ (fuel : Nat) :
    ended tree options fuel ⊆ ended tree options (fuel + 1) := by
  rintro ⟨id, top⟩ h
  rw [mem_ended] at h ⊢
  refine ⟨h.1, ?_⟩
  rw [← ((nodeWithin_succ (fuel + 1) id top.toNat 0).eq_of_ends h.2).1]
  exact h.2

theorem nodeWithin_outcome_of_size_le {fuel : Nat} {id : NodeId} (h : tree.size ≤ id) (d l : Nat) :
    (nodeWithin tree options (fuel + 1) id d l).outcome = .error (.foreignNode id) := by
  have hnode : tree.node id = .error (.foreignNode id) :=
    Tree.node_eq_error_iff.mpr ⟨h, rfl⟩
  simp [nodeWithin, nodeWith, hnode, orFault]

theorem outcome_succ_of_ended_eq {fuel : Nat}
    (h : ended tree options fuel = ended tree options (fuel + 1)) (id : NodeId) (d l : Nat) :
    (nodeWithin tree options (fuel + 1) id d l).outcome =
      (nodeWithin tree options (fuel + 2) id d l).outcome := by
  by_cases hid : tree.size ≤ id
  · rw [nodeWithin_outcome_of_size_le hid, nodeWithin_outcome_of_size_le hid]
  · have hplace : d = 0 ↔ (decide (d ≠ 0)).toNat = 0 := by by_cases hd : d = 0 <;> simp [hd]
    rw [nodeWithin_outcome_place _ id l 0 hplace, nodeWithin_outcome_place (fuel + 2) id l 0 hplace]
    have hmem : (id, decide (d ≠ 0)) ∈ ended tree options fuel ↔
        (id, decide (d ≠ 0)) ∈ ended tree options (fuel + 1) := by rw [h]
    rw [mem_ended, mem_ended] at hmem
    by_cases hends : (nodeWithin tree options (fuel + 1) id
        (decide (d ≠ 0)).toNat 0).outcome = .error .endless
    · by_contra hne
      have := hmem.mpr ⟨Nat.not_le.mp hid, fun he => hne (hends.trans he.symm)⟩
      exact this.2 hends
    · exact ((nodeWithin_succ _ id _ 0).eq_of_ends hends).1

theorem ended_eq_succ {fuel : Nat}
    (h : ended tree options fuel = ended tree options (fuel + 1)) :
    ended tree options (fuel + 1) = ended tree options (fuel + 2) := by
  ext ⟨id, top⟩
  rw [mem_ended, mem_ended]
  have hsame : (nodeWithin tree options (fuel + 2) id top.toNat 0).outcome =
      (nodeWithin tree options (fuel + 3) id top.toNat 0).outcome := by
    apply nodeWith_outcome _ id 0 0 Iff.rfl
    intro c d d' l l' hd
    rw [nodeWithin_outcome_place _ c l l' hd]
    exact outcome_succ_of_ended_eq h c d' l'
  rw [hsame]

theorem ended_stable {fuel : Nat} (h : 2 * tree.size ≤ fuel) :
    ended tree options fuel = ended tree options (fuel + 1) := by
  -- one unit of fuel after the other, at most `2 * tree.size` calls can come to an end
  have hstable {n : Nat} (hn : 2 * tree.size ≤ n) :
      ended tree options n = ended tree options (2 * tree.size) :=
    stable_of_card_le ended_subset_succ card_ended_le (fun _ => ended_eq_succ) hn
  rw [hstable h, hstable (h.trans (Nat.le_succ fuel))]

theorem toText_nodeWithin_succ {fuel : Nat} (h : 2 * tree.size + 1 ≤ fuel) (id : NodeId)
    (d l : Nat) :
    (nodeWithin tree options (fuel + 1) id d l).toText =
      (nodeWithin tree options fuel id d l).toText := by
  obtain ⟨fuel, rfl⟩ : ∃ n, fuel = n + 1 := ⟨fuel - 1, by omega⟩
  have hended : ended tree options fuel = ended tree options (fuel + 1) := ended_stable (by omega)
  have ho := outcome_succ_of_ended_eq hended id d l
  by_cases hends : (nodeWithin tree options (fuel + 1) id d l).toText = .error .endless
  · rw [toText_eq_error_iff] at hends
    rw [toText_eq_error_iff.mpr hends, toText_eq_error_iff.mpr (ho.symm.trans hends)]
  · exact (nodeWithin_succ (fuel + 1) id d l).toText_eq hends

theorem toText_nodeWithin_eq {fuel more : Nat} (h : 2 * tree.size + 1 ≤ fuel)
    (hmore : fuel ≤ more) (id : NodeId) (d l : Nat) :
    (nodeWithin tree options more id d l).toText =
      (nodeWithin tree options fuel id d l).toText := by
  induction hmore with
  | refl => rfl
  | step hle ih => rw [toText_nodeWithin_succ (h.trans hle), ih]

theorem size_lt_fuelFor (tree : Tree) (room : Option Nat) :
    2 * tree.size + 1 ≤ fuelFor tree room := by
  have hpos : 0 < room.getD 0 + 2 := by omega
  have := Nat.le_mul_of_pos_right (2 * tree.size + 2) hpos
  rw [fuelFor]
  omega

theorem toText_nodeWithin_of_room (room : Option Nat) (id : NodeId) (d l : Nat) :
    (nodeWithin tree options (fuelFor tree room) id d l).toText =
      (nodeWithin tree options (fuelFor tree none) id d l).toText := by
  apply toText_nodeWithin_eq (size_lt_fuelFor tree none)
  exact Nat.mul_le_mul_left _ (Nat.add_le_add_right (Nat.zero_le _) 2)

def unbounded (tree : Tree) (options : Options) : Renderer :=
  nodeWithin tree options (fuelFor tree none)

theorem toText_unbounded (tree : Tree) (options : Options) (id : NodeId) (d l : Nat) :
    (unbounded tree options id d l).toText =
      (nodeWith tree options (unbounded tree options) id d l).toText :=
  (toText_nodeWithin_succ (size_lt_fuelFor tree none) id d l).symm

theorem emitText_eq (id : NodeId) :
    emitText tree options id false = (unbounded tree options id 0 0).toText := rfl

end DeclTree.Header
