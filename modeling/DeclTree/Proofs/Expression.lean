import DeclTree.Proofs.Edges
import DeclTree.Proofs.Evaluation

namespace DeclTree

inductive Expression (α : Type)
  | leaf (a : α)
  | unary (op : UnaryOp) (operand : Expression α)
  | binary (op : BinaryOp) (left right : Expression α)
  deriving DecidableEq

namespace Expression

variable {α β : Type}

def map (f : α → β) : Expression α → Expression β
  | leaf a => leaf (f a)
  | unary op operand => unary op (operand.map f)
  | binary op left right => binary op (left.map f) (right.map f)

def leaves : Expression α → List α
  | leaf a => [a]
  | unary _ operand => operand.leaves
  | binary _ left right => left.leaves ++ right.leaves

theorem leaves_map (f : α → β) (e : Expression α) : (e.map f).leaves = e.leaves.map f := by
  induction e with
  | leaf a => rfl
  | unary op operand ih => exact ih
  | binary op left right ihl ihr => simp only [map, leaves, ihl, ihr, List.map_append]

theorem map_inj_on {f : α → β} {e e' : Expression α}
    (hf : ∀ a ∈ e.leaves, ∀ b ∈ e'.leaves, f a = f b → a = b) (h : e.map f = e'.map f) :
    e = e' := by
  induction e generalizing e' with
  | leaf a =>
    cases e' with
    | leaf b =>
      have hab : f a = f b := by simpa [map] using h
      rw [hf a (by simp [leaves]) b (by simp [leaves]) hab]
    | unary | binary => simp [map] at h
  | unary op operand ih =>
    cases e' with
    | unary op' operand' =>
      obtain ⟨rfl, hoperand⟩ : op = op' ∧ operand.map f = operand'.map f := by simpa [map] using h
      have heq : operand = operand' := ih hf hoperand
      rw [heq]
    | leaf | binary => simp [map] at h
  | binary op left right ihl ihr =>
    cases e' with
    | binary op' left' right' =>
      obtain ⟨rfl, hleft, hright⟩ : op = op' ∧ left.map f = left'.map f ∧
          right.map f = right'.map f := by simpa [map] using h
      have hl : left = left' := by
        refine ihl (fun a ha b hb => hf a ?_ b ?_) hleft <;> simp [leaves, ha, hb]
      have hr : right = right' := by
        refine ihr (fun a ha b hb => hf a ?_ b ?_) hright <;> simp [leaves, ha, hb]
      rw [hl, hr]
    | leaf | unary => simp [map] at h

end Expression

inductive Atom
  | identifier (text : String)
  | numeric (text : String)
  | string (text : String)
  | char (text : String)
  deriving DecidableEq

namespace Atom

def text : Atom → String
  | identifier text | numeric text | string text | char text => text

def isNumeric : Atom → Bool
  | numeric _ => true
  | _ => false

def value : Atom → Int64
  | numeric text => leadingInteger text
  | _ => 0

theorem eq_of_text_eq {a b : Atom} (ha : a.isNumeric) (hb : b.isNumeric) (h : a.text = b.text) :
    a = b := by
  cases a <;> cases b <;> simp_all [isNumeric, text]

end Atom

def Payload.isLeaf : Payload → Bool
  | identifier _ | numericConstant | stringConstant | charConstant => true
  | _ => false

def Node.atom? (node : Node) : Option Atom :=
  match node.payload with
  | .identifier _ => some (.identifier node.name)
  | .numericConstant => some (.numeric node.name)
  | .stringConstant => some (.string node.name)
  | .charConstant => some (.char node.name)
  | _ => none

theorem Node.of_atom?_eq_some {node : Node} {atom : Atom} (h : node.atom? = some atom) :
    node.payload.isLeaf ∧ node.name = atom.text := by
  unfold Node.atom? at h
  cases hp : node.payload with
  | identifier | numericConstant | stringConstant | charConstant =>
    obtain rfl : _ = atom := by simpa [hp] using h
    exact ⟨rfl, rfl⟩
  | _ => simp [hp] at h

theorem Node.isExpression_of_isLeaf {node : Node} (h : node.payload.isLeaf) :
    node.isExpression := by
  cases hp : node.payload with
  | identifier | numericConstant | stringConstant | charConstant =>
    simp [Node.isExpression, Node.type, Payload.type, hp]
  | _ => simp [hp, Payload.isLeaf] at h

theorem Payload.children_of_isLeaf {payload : Payload} (h : payload.isLeaf) :
    payload.children = [] := by
  cases payload with
  | identifier | numericConstant | stringConstant | charConstant => rfl
  | _ => cases h

namespace Expression

inductive Describes (tree : Tree) : NodeId → Expression Atom → Prop
  | leaf {id : NodeId} {node : Node} {atom : Atom} :
    tree.node id = .ok node → node.atom? = some atom → Describes tree id (.leaf atom)
  | unary {id operand : NodeId} {node : Node} {op : UnaryOp} {e : Expression Atom} :
    tree.node id = .ok node → node.payload = .unary op operand → Describes tree operand e →
    Describes tree id (.unary op e)
  | binary {id left right : NodeId} {node : Node} {op : BinaryOp} {e e' : Expression Atom} :
    tree.node id = .ok node → node.payload = .binary op left right → Describes tree left e →
    Describes tree right e' → Describes tree id (.binary op e e')

def value : Expression Atom → Int64
  | leaf atom => atom.value
  | unary op operand => op.apply operand.value
  | binary op left right => op.apply left.value right.value

namespace Describes

variable {tree : Tree} {e : Expression Atom} {id : NodeId}

theorem isExpression {node : Node} (h : e.Describes tree id) (hnode : tree.node id = .ok node) :
    node.isExpression := by
  cases h with
  | leaf hnode' hatom =>
    obtain rfl := Except.ok.inj (hnode.symm.trans hnode')
    exact Node.isExpression_of_isLeaf (Node.of_atom?_eq_some hatom).1
  | unary hnode' hpayload _ | binary hnode' hpayload _ _ =>
    obtain rfl := Except.ok.inj (hnode.symm.trans hnode')
    simp [Node.isExpression, Node.type, Payload.type, hpayload]

theorem all_below {p : Node → Prop} (h : e.Describes tree id)
    (hp : ∀ c (e : Expression Atom), e.Describes tree c → ∀ node, tree.node c = .ok node → p node) :
    tree.Below p id := by
  induction h with
  | @leaf id node atom hnode hatom =>
    refine .of_children hnode (hp id _ (.leaf hnode hatom) node hnode) fun c hc => ?_
    rw [Payload.children_of_isLeaf (Node.of_atom?_eq_some hatom).1] at hc
    cases hc
  | @unary id operand node op e hnode hpayload he ih =>
    refine .of_children hnode (hp id _ (.unary hnode hpayload he) node hnode) fun c hc => ?_
    obtain rfl : c = operand := by simpa [hpayload, Payload.children] using hc
    exact ih
  | @binary id left right node op e e' hnode hpayload he he' ihl ihr =>
    refine .of_children hnode (hp id _ (.binary hnode hpayload he he') node hnode) fun c hc => ?_
    obtain rfl | rfl : c = left ∨ c = right := by simpa [hpayload, Payload.children] using hc
    · exact ihl
    · exact ihr

theorem value_eq (h : e.Describes tree id) : tree.value id = .ok e.value := by
  induction h with
  | @leaf id node atom hnode hatom =>
    cases hp : node.payload with
    | numericConstant =>
      obtain rfl : _ = atom := by simpa [Node.atom?, hp] using hatom
      exact Tree.value_of_numeric hnode hp
    | identifier | stringConstant | charConstant =>
      obtain rfl : _ = atom := by simpa [Node.atom?, hp] using hatom
      exact Tree.value_of_not_isArithmetic hnode (by rw [hp]; rfl)
    | _ => simp [Node.atom?, hp] at hatom
  | unary hnode hpayload _ ih =>
    rw [Tree.value_of_unary hnode hpayload, ih]
    rfl
  | binary hnode hpayload _ _ ihl ihr =>
    rw [Tree.value_of_binary hnode hpayload, ihl, ihr]
    rfl

end Describes

end Expression

end DeclTree
