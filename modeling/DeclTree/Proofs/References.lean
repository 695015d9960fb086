import DeclTree.Proofs.Header.View

namespace DeclTree

def Node.unbound (node : Node) : Node := { node with payload := node.payload.unbound }

namespace Tree

def unbound (tree : Tree) : Tree := tree.mapNodes fun _ => Node.unbound

structure SameAnswers (tree tree' : Tree) : Prop where
  children : ∀ id, tree.children id = tree'.children id
  siblings : ∀ limit id, tree.siblings limit id = tree'.siblings limit id
  findTag : ∀ id name, tree.findTag id name = tree'.findTag id name
  hasTag : ∀ id name, tree.hasTag id name = tree'.hasTag id name
  tagParameters : ∀ id, tree.tagParameters id = tree'.tagParameters id
  tagParameter : ∀ id index, tree.tagParameter id index = tree'.tagParameter id index
  value : ∀ id, tree.value id = tree'.value id
  declarationIsType : ∀ id signature,
    tree.declarationIsType id signature = tree'.declarationIsType id signature
  typeSlot : ∀ id, (tree.typeUsageOf id).map Prod.fst = (tree'.typeUsageOf id).map Prod.fst
  emission : ∀ options id follow, Header.SameEmission tree options tree' options id follow
  compile : ∀ options, Header.compile tree options = Header.compile tree' options

variable {tree tree' : Tree} {tags : Bool}

theorem like_of_unbound_eq (h : tree.unbound = tree'.unbound) (tags : Bool) :
    tree.Like tags tree' tags := by
  have hunbound (tree : Tree) : tree.unbound.Like tags tree tags := by
    refine .mapNodes (fun _ => rfl) ?_
    rintro ⟨payload, text, next, all⟩
    cases payload <;> rfl
  have hsame := hunbound tree'
  rw [← h] at hsame
  exact (hunbound tree).symm.trans hsame

theorem sameAnswers_of_unbound_eq (h : tree.unbound = tree'.unbound) :
    tree.SameAnswers tree' := by
  have hlike := like_of_unbound_eq h
  have hfind := (hlike true).findTag
  have hparameters (id : NodeId) : tree.tagParameters id = tree'.tagParameters id :=
    tagParameters_eq_of_view ((hlike true).view id)
  constructor
  case children => exact fun id => children_eq_of_view ((hlike true).view id)
  case siblings => exact (hlike true).siblings
  case findTag => exact hfind
  case hasTag =>
    intro id name
    unfold hasTag
    rw [hfind]
  case tagParameters => exact hparameters
  case tagParameter =>
    intro id index
    unfold tagParameter
    rw [hparameters]
  case value =>
    intro id
    unfold value
    rw [((hlike true).below id).valueWithin, (hlike true).size]
  case declarationIsType => exact fun id => ((hlike true).below id).declarationIsType
  case typeSlot => exact fun id => ((hlike true).below id).typeSlot
  case emission =>
    intro options id follow
    apply Header.sameEmission_of_render
    exact fun room => Header.render_eq_of_like (hlike options.tagComments) room id follow
  case compile => exact fun options => Header.compile_eq_of_like (hlike options.tagComments)

def sized (declaration definition : Option NodeId) : Tree where
  nodes := #[{ payload := .identifier declaration, text := some "n" },
    { payload := .typeUsage ⟨1, [0], none, definition⟩, text := some "int" },
    { payload := .declaration 1 none, text := some "table", tags := [3] },
    { payload := .tag [0], text := some "packed" }]
  roots := [2]

theorem sameAnswers_sized :
    (sized (some 0) (some 2)).unbound = (sized (some 9) none).unbound ∧
      (sized (some 0) (some 2)).SameAnswers (sized (some 9) none) := by
  have h : (sized (some 0) (some 2)).unbound = (sized (some 9) none).unbound := by decide
  exact ⟨h, sameAnswers_of_unbound_eq h⟩

end Tree

end DeclTree
