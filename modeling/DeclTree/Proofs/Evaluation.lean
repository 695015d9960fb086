import DeclTree.Proofs.Collections
import DeclTree.Value

namespace DeclTree

def Payload.operands : Payload → List NodeId
  | unary _ operand => [operand]
  | binary _ left right => [left, right]
  | _ => []

theorem Payload.mem_children_of_operands {payload : Payload} {id : NodeId}
    (h : id ∈ payload.operands) : id ∈ payload.children := by
  cases payload with
  | unary | binary => exact h
  | _ => cases h

def Payload.isArithmetic : Payload → Bool
  | numericConstant | unary .. | binary .. => true
  | _ => false

namespace Tree

def valueWith (tree : Tree) (inner : NodeId → Except Fault Int64) (id : NodeId) :
    Except Fault Int64 := do
  let node ← tree.node id
  match node.payload with
  | .numericConstant => return leadingInteger node.name
  | .unary op operand => return op.apply (← inner operand)
  | .binary op left right =>
    let x ← inner left
    let y ← inner right
    return op.apply x y
  | _ => return 0

variable {tree : Tree} {inner inner' : NodeId → Except Fault Int64} {id : NodeId} {fuel : Nat}

theorem valueWithin_succ (fuel : Nat) :
    tree.valueWithin (fuel + 1) = tree.valueWith (tree.valueWithin fuel) := rfl

theorem bind_ends_eq {α β : Type} {x x' : Except Fault α} {k k' : α → Except Fault β}
    (hends : (x >>= k) ≠ .error .endless) (hx : x ≠ .error .endless → x' = x)
    (hk : ∀ a, k a ≠ .error .endless → k' a = k a) : (x' >>= k') = (x >>= k) := by
  have hne : x ≠ .error .endless := by
    rintro rfl
    exact hends rfl
  rw [hx hne]
  cases x with
  | error f => rfl
  | ok a => exact hk a hends

theorem valueWith_eq_of_ends (h : tree.valueWith inner id ≠ .error .endless)
    (hinner : ∀ c, inner c ≠ .error .endless → inner' c = inner c) :
    tree.valueWith inner' id = tree.valueWith inner id := by
  refine bind_ends_eq h (fun _ => rfl) fun node hnode => ?_
  cases hp : node.payload with
  | unary op operand =>
    rw [hp] at hnode
    exact bind_ends_eq hnode (hinner operand) fun _ _ => rfl
  | binary op left right =>
    rw [hp] at hnode
    refine bind_ends_eq hnode (hinner left) fun x hx => ?_
    exact bind_ends_eq hx (hinner right) fun _ _ => rfl
  | _ => rfl

theorem valueWithin_succ_of_ends (h : tree.valueWithin fuel id ≠ .error .endless) :
    tree.valueWithin (fuel + 1) id = tree.valueWithin fuel id := by
  induction fuel generalizing id with
  | zero => exact absurd rfl h
  | succ fuel ih => exact valueWith_eq_of_ends h fun _ hc => ih hc

noncomputable def evaluated (tree : Tree) (fuel : Nat) : Finset NodeId :=
  open scoped Classical in
  (Finset.range tree.size).filter fun id => tree.valueWithin (fuel + 1) id ≠ .error .endless

theorem mem_evaluated :
    id ∈ tree.evaluated fuel ↔
      id < tree.size ∧ tree.valueWithin (fuel + 1) id ≠ .error .endless := by
  simp [evaluated]

theorem card_evaluated_le (fuel : Nat) : (tree.evaluated fuel).card ≤ tree.size := by
  classical exact (Finset.card_filter_le _ _).trans (Finset.card_range _).le

theorem evaluated_subset_succ (fuel : Nat) : tree.evaluated fuel ⊆ tree.evaluated (fuel + 1) := by
  intro id h
  rw [mem_evaluated] at h ⊢
  refine ⟨h.1, ?_⟩
  rw [valueWithin_succ_of_ends h.2]
  exact h.2

theorem valueWithin_succ_of_evaluated_eq (h : tree.evaluated fuel = tree.evaluated (fuel + 1)) :
    tree.valueWithin (fuel + 2) = tree.valueWithin (fuel + 1) := by
  funext id
  by_cases hends : tree.valueWithin (fuel + 1) id = .error .endless
  · have hid : id < tree.size := by
      by_contra hid
      have hnode := node_eq_error_iff.mpr ⟨Nat.not_lt.mp hid, rfl⟩
      rw [valueWithin_succ, valueWith, hnode] at hends
      cases hends
    have hmem : id ∉ tree.evaluated (fuel + 1) := by
      rw [← h, mem_evaluated]
      exact fun hm => hm.2 hends
    rw [mem_evaluated, not_and_not_right] at hmem
    rw [hmem hid, hends]
  · exact valueWithin_succ_of_ends hends

theorem valueWithin_size_succ :
    tree.valueWithin (tree.size + 2) = tree.valueWithin (tree.size + 1) := by
  apply valueWithin_succ_of_evaluated_eq
  have hstep (n : Nat) (hn : tree.evaluated n = tree.evaluated (n + 1)) :
      tree.evaluated (n + 1) = tree.evaluated (n + 2) := by
    have hsame := valueWithin_succ_of_evaluated_eq hn
    ext id
    rw [mem_evaluated, mem_evaluated, valueWithin_succ (n + 2), hsame, ← valueWithin_succ, hsame]
  -- each unit of fuel lets another node come to an end, or no further one ever does
  exact (stable_of_card_le evaluated_subset_succ card_evaluated_le hstep (Nat.le_succ _)).symm

/-- The value of a node is that of its operands combined: the bound on the depth of an expression
never shows. -/
theorem value_eq_valueWith (id : NodeId) : tree.value id = tree.valueWith tree.value id :=
  congrFun valueWithin_size_succ.symm id

theorem valueWithin_of_size_lt (h : tree.size < fuel) : tree.valueWithin fuel = tree.value := by
  induction fuel, h using Nat.le_induction with
  | base => rfl
  | succ fuel _ ih =>
    funext id
    rw [valueWithin_succ, ih, ← value_eq_valueWith]

section Node

variable {node : Node} (hnode : tree.node id = .ok node)
include hnode

theorem value_of_numeric (hp : node.payload = .numericConstant) :
    tree.value id = .ok (leadingInteger node.name) := by
  rw [value_eq_valueWith id]
  refine bind_eq_ok.mpr ⟨node, hnode, ?_⟩
  rw [hp]
  rfl

theorem value_of_unary {op : UnaryOp} {operand : NodeId} (hp : node.payload = .unary op operand) :
    tree.value id = do return op.apply (← tree.value operand) := by
  rw [value_eq_valueWith id, valueWith, hnode]
  simp only [bind, Except.bind, hp]

theorem value_of_binary {op : BinaryOp} {left right : NodeId}
    (hp : node.payload = .binary op left right) :
    tree.value id = do return op.apply (← tree.value left) (← tree.value right) := by
  rw [value_eq_valueWith id, valueWith, hnode]
  simp only [bind, Except.bind, hp]

theorem value_of_not_isArithmetic (hp : node.payload.isArithmetic = false) :
    tree.value id = .ok 0 := by
  rw [value_eq_valueWith id]
  refine bind_eq_ok.mpr ⟨node, hnode, ?_⟩
  cases hpayload : node.payload with
  | numericConstant | unary | binary => simp [hpayload, Payload.isArithmetic] at hp
  | _ => rfl

end Node

end Tree

end DeclTree
