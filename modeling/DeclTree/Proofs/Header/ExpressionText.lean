import DeclTree.Proofs.Header.Prints

namespace DeclTree

abbrev Tree.Tagless (tree : Tree) (id : NodeId) : Prop :=
  tree.Below (fun node => node.tags = []) id

def Expression.chars : Expression String → List Char
  | leaf text => text.toList
  | unary op operand => '(' :: (op.spelling.toList ++ (operand.chars ++ [')']))
  | binary op left right =>
    '(' :: (left.chars ++ ' ' :: (op.spelling.toList ++ ' ' :: (right.chars ++ [')'])))

namespace Header

variable {tree : Tree} {options : Options} {id c : NodeId} {node : Node} {e : Expression Atom}

theorem plain_of_tagless (htags : options.tagComments = false ∨ tree.Tagless id)
    (hnode : tree.node id = .ok node) : Plain tree options id node.payload node.text :=
  ⟨node, hnode, rfl, rfl, htags.imp_right fun h => h.self hnode⟩

theorem tagless_child (htags : options.tagComments = false ∨ tree.Tagless id)
    (hnode : tree.node id = .ok node) (hc : c ∈ node.payload.children) :
    options.tagComments = false ∨ tree.Tagless c :=
  htags.imp_right fun h => h.child hnode hc

theorem prints_expression (h : e.Describes tree id)
    (htags : options.tagComments = false ∨ tree.Tagless id) (d l : Nat) :
    Prints (unbounded tree options id d l) (e.map Atom.text).chars := by
  induction h generalizing d l with
  | @leaf id node atom hnode hatom =>
    obtain ⟨hleaf, hname⟩ := Node.of_atom?_eq_some hatom
    have hprints : Prints (unbounded tree options id d l) node.name.toList :=
      prints_unbounded (prints_leaf hleaf (plain_of_tagless htags hnode))
    rwa [hname] at hprints
  | @unary id operand node op e hnode hpayload _ ih =>
    have hplain := plain_of_tagless htags hnode
    have hchild {c : NodeId} := tagless_child (c := c) htags hnode
    rw [hpayload] at hplain hchild
    have hoperand := ih (hchild (by simp [Payload.children])) (d + 1) l
    exact prints_unbounded (prints_unary hplain hoperand)
  | @binary id left right node op e e' hnode hpayload _ _ ihl ihr =>
    have hplain := plain_of_tagless htags hnode
    have hchild {c : NodeId} := tagless_child (c := c) htags hnode
    rw [hpayload] at hplain hchild
    have hleft := ihl (hchild (by simp [Payload.children])) d l
    have hright := ihr (hchild (by simp [Payload.children])) (d + 1) l
    exact prints_unbounded (prints_binary hplain hleft hright)

theorem emitText_of_expression (h : e.Describes tree id)
    (htags : options.tagComments = false ∨ tree.Tagless id) :
    emitText tree options id false = .ok (String.ofList (e.map Atom.text).chars) := by
  rw [emitText_eq]
  exact (prints_expression h htags 0 0).toText

end Header

end DeclTree
