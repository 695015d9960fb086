import Mathlib.Tactic.IntervalCases
import DeclTree.Proofs.Grounded
import DeclTree.Proofs.WordOperators

namespace DeclTree

open Relation

namespace Tree

inductive Reference (tree : Tree) : NodeId → Int → Prop
  | numeric {id : NodeId} {node : Node} :
    tree.node id = .ok node → node.payload = .numericConstant →
    Reference tree id (decimal node.name)
  | unary {id operand : NodeId} {node : Node} {op : UnaryOp} {x : Int} :
    tree.node id = .ok node → node.payload = .unary op operand → Reference tree operand x →
    Reference tree id (op.exact x)
  | binary {id left right : NodeId} {node : Node} {op : BinaryOp} {x y : Int} :
    tree.node id = .ok node → node.payload = .binary op left right → Reference tree left x →
    Reference tree right y → Reference tree id (op.exact x y)
  | other {id : NodeId} {node : Node} :
    tree.node id = .ok node → node.payload.isArithmetic = false → Reference tree id 0

variable {tree : Tree} {id c : NodeId} {node : Node} {x y : Int}

theorem Evaluable.exists_reference (h : tree.Evaluable id) : ∃ x, tree.Reference id x := by
  refine h.elim (P := fun id => ∃ x, tree.Reference id x) ?_ ?_ ?_ ?_
  · intro id node hnode hp
    exact ⟨_, .numeric hnode hp⟩
  · rintro id node op operand hnode hp ⟨x, hx⟩
    exact ⟨_, .unary hnode hp hx⟩
  · rintro id node op left right hnode hp ⟨x, hx⟩ ⟨y, hy⟩
    exact ⟨_, .binary hnode hp hx hy⟩
  · intro id node hnode hp
    exact ⟨0, .other hnode hp⟩

namespace Reference

theorem of_node (h : tree.Reference id x) (hnode : tree.node id = .ok node) :
    match node.payload with
    | .numericConstant => x = decimal node.name
    | .unary op operand => ∃ y, tree.Reference operand y ∧ x = op.exact y
    | .binary op left right =>
      ∃ y z, tree.Reference left y ∧ tree.Reference right z ∧ x = op.exact y z
    | _ => x = 0 := by
  cases h with
  | numeric hnode' hp =>
    obtain rfl := Except.ok.inj (hnode.symm.trans hnode')
    rw [hp]
  | unary hnode' hp hoperand =>
    obtain rfl := Except.ok.inj (hnode.symm.trans hnode')
    rw [hp]
    exact ⟨_, hoperand, rfl⟩
  | binary hnode' hp hleft hright =>
    obtain rfl := Except.ok.inj (hnode.symm.trans hnode')
    rw [hp]
    exact ⟨_, _, hleft, hright, rfl⟩
  | other hnode' hp =>
    obtain rfl := Except.ok.inj (hnode.symm.trans hnode')
    cases hpayload : node.payload <;> simp_all [Payload.isArithmetic]

theorem unique (hx : tree.Reference id x) (hy : tree.Reference id y) : y = x := by
  induction hx generalizing y with
  | numeric hnode hp =>
    have h := hy.of_node hnode
    rwa [hp] at h
  | unary hnode hp _ ih =>
    have h := hy.of_node hnode
    rw [hp] at h
    obtain ⟨z, hz, rfl⟩ := h
    rw [ih hz]
  | binary hnode hp _ _ ihl ihr =>
    have h := hy.of_node hnode
    rw [hp] at h
    obtain ⟨z, z', hz, hz', rfl⟩ := h
    rw [ihl hz, ihr hz']
  | @other id node hnode hp =>
    have h := hy.of_node hnode
    cases hpayload : node.payload <;> simp_all [Payload.isArithmetic]

theorem value_eq_ofInt (h : tree.Reference id x)
    (hrange : ∀ c y, ReflTransGen tree.Operand id c → tree.Reference c y →
      -2 ^ 63 ≤ y ∧ y < 2 ^ 63) :
    tree.value id = .ok (Int64.ofInt x) := by
  induction h with
  | numeric hnode hp => rw [value_of_numeric hnode hp, leadingInteger_eq, Int64.ofInt_eq_ofNat]
  | @unary id operand node op x hnode hp hx ih =>
    have hedge : tree.Operand id operand := operand_of_mem hnode (by simp [hp, Payload.operands])
    have hword := hrange operand x (.single hedge) hx
    have hvalue := ih fun c y hc => hrange c y (.head hedge hc)
    rw [value_of_unary hnode hp, hvalue]
    change Except.ok (op.apply (Int64.ofInt x)) = _
    rw [op.apply_eq_ofInt, Int64.toInt_ofInt_of_le hword.1 hword.2]
  | @binary id left right node op x y hnode hp hx hy ihl ihr =>
    have hleft : tree.Operand id left := operand_of_mem hnode (by simp [hp, Payload.operands])
    have hright : tree.Operand id right := operand_of_mem hnode (by simp [hp, Payload.operands])
    have hwordl := hrange left x (.single hleft) hx
    have hwordr := hrange right y (.single hright) hy
    have hvaluel := ihl fun c z hc => hrange c z (.head hleft hc)
    have hvaluer := ihr fun c z hc => hrange c z (.head hright hc)
    rw [value_of_binary hnode hp, hvaluel, hvaluer]
    change Except.ok (op.apply (Int64.ofInt x) (Int64.ofInt y)) = _
    rw [op.apply_eq_ofInt, Int64.toInt_ofInt_of_le hwordl.1 hwordl.2,
      Int64.toInt_ofInt_of_le hwordr.1 hwordr.2]
  | other hnode hp => exact value_of_not_isArithmetic hnode hp

end Reference

/-- Every expression over existing nodes has one reference value, and it evaluates to that value
if no reference value in it leaves the range of a word. -/
theorem value_eq_reference (h : tree.Evaluable id)
    (hrange : ∀ c y, ReflTransGen tree.Operand id c → tree.Reference c y →
      -2 ^ 63 ≤ y ∧ y < 2 ^ 63) :
    ∃ x v, (∀ y, tree.Reference id y ↔ y = x) ∧ tree.value id = .ok v ∧ v.toInt = x := by
  obtain ⟨x, hx⟩ := Evaluable.exists_reference h
  have hword := hrange id x .refl hx
  refine ⟨x, Int64.ofInt x, fun y => ?_, hx.value_eq_ofInt hrange,
    Int64.toInt_ofInt_of_le hword.1 hword.2⟩
  constructor
  · exact hx.unique
  · rintro rfl
    exact hx

def maskedTree : Tree where
  nodes := #[⟨.numericConstant, some "7", none, []⟩, ⟨.unary .negate 0, some "-", none, []⟩,
    ⟨.numericConstant, some "2u", none, []⟩, ⟨.binary .shr 1 2, some ">>", none, []⟩,
    ⟨.unary .bitNot 2, some "~", none, []⟩, ⟨.binary .bitAnd 3 4, some "&", none, []⟩,
    ⟨.identifier (some 0), some "seven", none, []⟩, ⟨.binary .mod 1 5, some "%", none, []⟩,
    ⟨.binary .add 7 6, some "+", none, []⟩]

theorem reference_masked :
    ∀ c < 9, maskedTree.Reference c ([7, -7, 2, -2, -3, -4, 0, -3, -3].getD c 0) := by
  have hnumeric {id : NodeId} {node : Node} {n : Nat} (hnode : maskedTree.node id = .ok node)
      (hp : node.payload = .numericConstant) (hn : decimal node.name = n) :
      maskedTree.Reference id n := hn ▸ .numeric hnode hp
  have h0 : maskedTree.Reference 0 7 := hnumeric rfl rfl (by decide)
  have h1 : maskedTree.Reference 1 (UnaryOp.negate.exact 7) := .unary rfl rfl h0
  have h2 : maskedTree.Reference 2 2 := hnumeric rfl rfl (by decide)
  have h3 : maskedTree.Reference 3 (BinaryOp.shr.exact (-7) 2) := .binary rfl rfl h1 h2
  have h4 : maskedTree.Reference 4 (UnaryOp.bitNot.exact 2) := .unary rfl rfl h2
  have h5 : maskedTree.Reference 5 (BinaryOp.bitAnd.exact (-2) (-3)) := .binary rfl rfl h3 h4
  have h6 : maskedTree.Reference 6 0 := .other rfl rfl
  have h7 : maskedTree.Reference 7 (BinaryOp.mod.exact (-7) (-4)) := .binary rfl rfl h1 h5
  have h8 : maskedTree.Reference 8 (BinaryOp.add.exact (-3) 0) := .binary rfl rfl h7 h6
  intro c hc
  interval_cases c
  exacts [h0, h1, h2, h3, h4, h5, h6, h7, h8]

theorem value_eq_reference_masked :
    maskedTree.Evaluable 8 ∧
      (∀ c y, ReflTransGen maskedTree.Operand 8 c → maskedTree.Reference c y →
        -2 ^ 63 ≤ y ∧ y < 2 ^ 63) ∧
      ∃ v, maskedTree.value 8 = .ok v ∧ v.toInt = -3 := by
  have hfall : ∀ a < 9, ∀ node ∈ maskedTree.nodes[a]?, ∀ b ∈ node.payload.operands, b < a := by
    decide
  have h : maskedTree.Evaluable 8 := by
    refine .of_lt ?_ (by decide)
    rintro a b ⟨node, hnode, hb⟩
    exact hfall a (lt_size hnode) node (node_eq_ok_iff.mp hnode) b hb
  have hrange (c : NodeId) (y : Int) (hc : ReflTransGen maskedTree.Operand 8 c)
      (hy : maskedTree.Reference c y) : -2 ^ 63 ≤ y ∧ y < 2 ^ 63 := by
    have htable : ∀ c < 9, -2 ^ 63 ≤ [7, -7, 2, -2, -3, -4, 0, -3, -3].getD c (0 : Int) ∧
        [7, -7, 2, -2, -3, -4, 0, -3, -3].getD c (0 : Int) < 2 ^ 63 := by decide
    have hlt := h.lt_size c hc
    rw [(reference_masked c hlt).unique hy]
    exact htable c hlt
  obtain ⟨x, v, hx, hv, rfl⟩ := value_eq_reference h hrange
  exact ⟨h, hrange, v, hv, ((hx (-3)).mp (reference_masked 8 (by decide))).symm⟩

end Tree

end DeclTree
