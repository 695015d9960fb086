import DeclTree.Proofs.Build.Closed
import DeclTree.Proofs.Edges
import DeclTree.Proofs.Evaluation

namespace DeclTree.Tree

open Relation

abbrev Grounded (tree : Tree) (tags : Bool) (id : NodeId) : Prop := tree.Founded (tree.Edge tags) id

def Operand (tree : Tree) (a b : NodeId) : Prop :=
  ∃ node, tree.node a = .ok node ∧ b ∈ node.payload.operands

abbrev Evaluable (tree : Tree) (id : NodeId) : Prop := tree.Founded tree.Operand id

variable {tree : Tree} {tags : Bool} {id a b : NodeId}

theorem Closed.lt_size_of_edge (h : tree.Closed) (he : tree.Edge tags a b) : b < tree.size := by
  obtain ⟨node, hnode, hchild | ⟨_, htag⟩⟩ := he
  · exact Nat.lt_trans (h.children_lt a node hnode b hchild) (lt_size hnode)
  · exact h.tags_lt a node hnode b htag

theorem Closed.lt_size_of_path (h : tree.Closed) (ha : a < tree.size)
    (hpath : ReflTransGen (tree.Edge tags) a b) : b < tree.size := by
  induction hpath with
  | refl => exact ha
  | tail _ he _ => exact h.lt_size_of_edge he

theorem Closed.acyclic (h : tree.Closed) : tree.Acyclic false := by
  apply acyclic_of_rank fun id => id
  rintro a b ⟨node, hnode, hchild | ⟨htags, _⟩⟩
  · exact h.children_lt a node hnode b hchild
  · cases htags

theorem Acyclic.grounded (hacyclic : tree.Acyclic tags) (hclosed : tree.Closed)
    (hid : id < tree.size) : tree.Grounded tags id where
  lt_size _ hc := hclosed.lt_size_of_path hid hc
  acyclic c _ := hacyclic c

theorem Closed.grounded (h : tree.Closed) (hid : id < tree.size) : tree.Grounded false id :=
  h.acyclic.grounded h hid

theorem operand_of_mem {node : Node} (hnode : tree.node id = .ok node)
    (h : a ∈ node.payload.operands) : tree.Operand id a :=
  ⟨node, hnode, h⟩

theorem Evaluable.elim {P : NodeId → Prop} (h : tree.Evaluable id)
    (numeric : ∀ {id node}, tree.node id = .ok node → node.payload = .numericConstant → P id)
    (unary : ∀ {id node op operand}, tree.node id = .ok node →
      node.payload = .unary op operand → P operand → P id)
    (binary : ∀ {id node op left right}, tree.node id = .ok node →
      node.payload = .binary op left right → P left → P right → P id)
    (other : ∀ {id node}, tree.node id = .ok node → node.payload.isArithmetic = false → P id) :
    P id := by
  refine h.induction ?_
  intro id h ih
  obtain ⟨node, hnode⟩ := exists_node (h.lt_size id .refl)
  have hoperand (c : NodeId) (hc : c ∈ node.payload.operands) : P c :=
    ih c (.single (operand_of_mem hnode hc))
  cases hp : node.payload with
  | numericConstant => exact numeric hnode hp
  | unary op operand =>
    rw [hp] at hoperand
    exact unary hnode hp (hoperand operand (by simp [Payload.operands]))
  | binary op left right =>
    rw [hp] at hoperand
    exact binary hnode hp (hoperand left (by simp [Payload.operands]))
      (hoperand right (by simp [Payload.operands]))
  | _ => exact other hnode (by rw [hp]; rfl)

theorem Evaluable.value (h : tree.Evaluable id) : ∃ value, tree.value id = .ok value := by
  refine h.elim (P := fun id => ∃ value, tree.value id = .ok value) ?_ ?_ ?_ ?_
  · intro id node hnode hp
    exact ⟨_, value_of_numeric hnode hp⟩
  · rintro id node op operand hnode hp ⟨x, hx⟩
    rw [value_of_unary hnode hp]
    exact exists_bind_eq_ok hx ⟨op.apply x, rfl⟩
  · rintro id node op left right hnode hp ⟨x, hx⟩ ⟨y, hy⟩
    rw [value_of_binary hnode hp]
    exact exists_bind_eq_ok hx (exists_bind_eq_ok hy ⟨op.apply x y, rfl⟩)
  · intro id node hnode hp
    exact ⟨0, value_of_not_isArithmetic hnode hp⟩

theorem Grounded.value (h : tree.Grounded tags id) : ∃ value, tree.value id = .ok value := by
  have hoperand : tree.Evaluable id := h.mono fun a b ⟨node, hnode, hb⟩ =>
    edge_of_child hnode (Payload.mem_children_of_operands hb)
  exact Evaluable.value hoperand

end DeclTree.Tree
