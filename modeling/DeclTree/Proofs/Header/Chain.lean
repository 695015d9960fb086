import DeclTree.Proofs.Header.Fuel

namespace DeclTree.Header

open Rendering

variable {tree : Tree} {options : Options} {node node' : NodeId → Rendering Unit}
  {fuel more cap : Nat} {id next : NodeId} {n : Node} {f : Fault}

theorem chainWithin_succ :
    chainWithin tree node (fuel + 1) id = (do
      let n ← orFault (tree.node id)
      node id
      match n.next with
      | some next => chainWithin tree node fuel next
      | none => done ()) := rfl

theorem chainWithin_of_missing (h : tree.node id = .error f) :
    chainWithin tree node (fuel + 1) id = .fault f := by
  rw [chainWithin_succ, h]
  rfl

theorem chainWithin_of_last (h : tree.node id = .ok n) (hn : n.next = none) :
    chainWithin tree node (fuel + 1) id = node id := by
  rw [chainWithin_succ, h]
  change (node id >>= fun _ => match n.next with
    | some next => chainWithin tree node fuel next
    | none => done ()) = _
  rw [hn]
  exact bind_done (node id)

theorem chainWithin_of_next (h : tree.node id = .ok n) (hn : n.next = some next) :
    chainWithin tree node (fuel + 1) id = (do node id; chainWithin tree node fuel next) := by
  rw [chainWithin_succ, h]
  change (node id >>= fun _ => match n.next with
    | some next => chainWithin tree node fuel next
    | none => done ()) = _
  rw [hn]

theorem chainWithin_mono (hnode : ∀ id, Within (node id) (node' id)) (h : fuel ≤ more)
    (id : NodeId) : Within (chainWithin tree node fuel id) (chainWithin tree node' more id) := by
  induction fuel generalizing more id with
  | zero => exact .of_endless _
  | succ fuel ih =>
    obtain ⟨more, rfl⟩ : ∃ m, more = m + 1 := ⟨more - 1, by omega⟩
    rw [chainWithin_succ, chainWithin_succ]
    apply orFault_rel fun _ _ => .refl _
    intro n _
    apply (hnode id).bind
    cases n.next with
    | none => exact .refl _
    | some next => exact ih (by omega) next

def chainSize (tree : Tree) (node : NodeId → Rendering Unit) (fuel : Nat) (id : NodeId) : Nat :=
  (chainWithin tree node fuel id).written.utf8ByteSize

theorem chainSize_mono (tree : Tree) (node : NodeId → Rendering Unit) (id : NodeId)
    (h : fuel ≤ more) : chainSize tree node fuel id ≤ chainSize tree node more id := by
  have hchain : Within (chainWithin tree node fuel id) (chainWithin tree node more id) :=
    chainWithin_mono (fun _ => .refl _) h id
  obtain ⟨rest, hrest⟩ := hchain.written
  rw [chainSize, chainSize, hrest, String.utf8ByteSize_append]
  exact Nat.le_add_right _ _

theorem chainSize_succ (tree : Tree) (node : NodeId → Rendering Unit) (id : NodeId) :
    (∃ size, ∀ fuel, chainSize tree node (fuel + 1) id = size) ∨
      ∃ next, ∀ fuel, chainSize tree node (fuel + 1) id =
        (node id).written.utf8ByteSize + chainSize tree node fuel next := by
  cases hnode : tree.node id with
  | error f => exact .inl ⟨0, fun fuel => by rw [chainSize, chainWithin_of_missing hnode]; rfl⟩
  | ok n =>
    cases hnext : n.next with
    | none =>
      exact .inl ⟨_, fun fuel => by rw [chainSize, chainWithin_of_last hnode hnext]⟩
    | some next =>
      cases houtcome : (node id).outcome with
      | error f =>
        left
        refine ⟨(node id).written.utf8ByteSize, fun fuel => ?_⟩
        rw [chainSize, chainWithin_of_next hnode hnext, written_bind_of_error houtcome]
      | ok value =>
        right
        refine ⟨next, fun fuel => ?_⟩
        rw [chainSize, chainWithin_of_next hnode hnext, written_bind_of_ok houtcome,
          String.utf8ByteSize_append]
        rfl

def overflowing (tree : Tree) (node : NodeId → Rendering Unit) (cap fuel : Nat) : Finset NodeId :=
  (Finset.range tree.size).filter fun id => cap < chainSize tree node fuel id

theorem mem_overflowing :
    id ∈ overflowing tree node cap fuel ↔ cap < chainSize tree node fuel id := by
  rw [overflowing, Finset.mem_filter, Finset.mem_range, and_iff_right_iff_imp]
  intro h
  by_contra hid
  have hmissing : tree.node id = .error (.foreignNode id) :=
    Tree.node_eq_error_iff.mpr ⟨Nat.not_lt.mp hid, rfl⟩
  cases fuel with
  | zero => simp [chainSize, chainWithin] at h
  | succ fuel => simp [chainSize, chainWithin_of_missing hmissing] at h

/-- A chain that can write more than `cap` bytes at all does so after at most `cap + 1` rounds over
the nodes of the tree: no round passes without a byte. -/
theorem chainSize_overflow (cap : Nat) {id : NodeId} (h : cap < chainSize tree node fuel id) :
    cap < chainSize tree node ((cap + 1) * (tree.size + 1)) id := by
  -- on the bytes still missing: the nodes that overflow stand still when a round writes none
  induction cap using Nat.strong_induction_on generalizing fuel id with
  | _ cap ih =>
    let D := fun n => overflowing tree node cap (cap * (tree.size + 1) + n)
    have hmono (n : Nat) : D n ⊆ D (n + 1) := by
      intro x hx
      exact mem_overflowing.mpr ((mem_overflowing.mp hx).trans_le (chainSize_mono _ _ _ (by omega)))
    have hcard (n : Nat) : (D n).card ≤ tree.size :=
      (Finset.card_filter_le _ _).trans (Finset.card_range _).le
    have hstep (n : Nat) (hn : D n = D (n + 1)) : D (n + 1) = D (n + 2) := by
      apply (hmono (n + 1)).antisymm
      intro x hx
      apply mem_overflowing.mpr
      have hx := mem_overflowing.mp hx
      obtain ⟨size, hsize⟩ | ⟨next, hnext⟩ := chainSize_succ tree node x
      · simpa only [← Nat.add_assoc, hsize] using hx
      · simp only [← Nat.add_assoc, hnext] at hx ⊢
        by_cases hempty : (node x).written.utf8ByteSize = 0
        · rw [hempty, Nat.zero_add] at hx ⊢
          have hmem : next ∈ D (n + 1) := mem_overflowing.mpr hx
          rw [← hn] at hmem
          exact mem_overflowing.mp hmem
        · by_cases hlarge : cap < (node x).written.utf8ByteSize
          · omega
          · -- the bytes still missing are fewer, and the rounds for them are over
            have hrest := ih (cap - (node x).written.utf8ByteSize) (by omega)
              (Nat.sub_lt_left_of_lt_add (by omega) hx)
            have hrounds : (cap - (node x).written.utf8ByteSize + 1) * (tree.size + 1) ≤
                cap * (tree.size + 1) + n :=
              (Nat.mul_le_mul_right _ (by omega)).trans (Nat.le_add_right _ _)
            have := chainSize_mono tree node next hrounds
            omega
    have hmem : id ∈ D (max fuel tree.size) :=
      mem_overflowing.mpr (h.trans_le (chainSize_mono _ _ _ (by omega)))
    rw [stable_of_card_le hmono hcard hstep (le_max_right _ _)] at hmem
    refine (mem_overflowing.mp hmem).trans_le (chainSize_mono _ _ _ ?_)
    rw [Nat.add_mul, Nat.one_mul]
    omega

end DeclTree.Header
