import DeclTree.Proofs.Header.Grounded
import DeclTree.Proofs.Header.View

namespace DeclTree

@[simp] theorem Payload.unbound_refer (payload : Payload) (target : NodeId) :
    (payload.refer target).unbound = payload.unbound := by
  cases payload <;> rfl

theorem Step.view_touched (step : Step) (id : NodeId) (node : Node) :
    (step.touched id node).view false = node.view false := by
  cases step <;> simp only [touched] <;> split <;> simp [Node.view]

namespace Header

variable {tree final : Tree} {options : Options} {id : NodeId}

theorem render_eq_of_likeBelow (h : tree.Grounded options.tagComments id)
    (hlike : tree.LikeBelow options.tagComments final options.tagComments id)
    (hsize : tree.size ≤ final.size) (room : Option Nat) :
    render tree options room id false = render final options room id false := by
  -- the larger tree grants more fuel, which nothing below a grounded node can use up
  have hheight := card_below_lt_fuelFor h room
  have hfuel : fuelFor tree room ≤ fuelFor final room := Nat.mul_le_mul_right _ (by omega)
  calc nodeWithin tree options (fuelFor tree room) id 0 0
    _ = nodeWithin tree options (fuelFor final room) id 0 0 :=
      (nodeWithin_of_grounded h hheight hfuel 0 0).symm
    _ = nodeWithin final options (fuelFor final room) id 0 0 :=
      nodeWithin_eq_of_view hlike (fuelFor final room) 0 0

end Header

namespace Tree

/-- A node means the same in two trees, whatever list it is in and whatever tags it carries, and
neither its value nor its text is endless. -/
structure SameMeaning (tree tree' : Tree) (id : NodeId) : Prop where
  text : (tree.node id).map Node.text = (tree'.node id).map Node.text
  type : (tree.node id).map Node.type = (tree'.node id).map Node.type
  children : tree.children id = tree'.children id
  tagParameters : tree.tagParameters id = tree'.tagParameters id
  value : ∃ value, tree.value id = .ok value ∧ tree'.value id = .ok value
  declarationIsType : ∀ signature,
    tree.declarationIsType id signature = tree'.declarationIsType id signature
  emission : ∀ options : Header.Options, options.tagComments = false →
    Header.SameEmission tree options tree' options id false
  ends : ∀ options : Header.Options, options.tagComments = false → ∀ room,
    (Header.render tree options room id false).outcome ≠ .error .endless

variable {tree final : Tree} {step : Step} {steps : List Step} {id : NodeId}

theorem view_after (hid : id < tree.size) : (tree.after step).view false id = tree.view false id := by
  obtain ⟨node, hnode⟩ := exists_node hid
  rw [view_of_ok hnode, view_of_ok (node_after_of_ok hnode)]
  exact congrArg Except.ok (step.view_touched id node)

theorem size_le_performAll (hrun : tree.performAll steps = .ok final) : tree.size ≤ final.size := by
  induction steps generalizing tree with
  | nil =>
    cases hrun
    exact Nat.le_refl _
  | cons step rest ih =>
    obtain ⟨answer, _, hrun⟩ := performAll_cons_eq_ok hrun
    exact Nat.le_trans size_le_after (ih hrun)

theorem view_performAll (hrun : tree.performAll steps = .ok final) (hid : id < tree.size) :
    final.view false id = tree.view false id := by
  induction steps generalizing tree with
  | nil =>
    cases hrun
    rfl
  | cons step rest ih =>
    obtain ⟨answer, _, hrun⟩ := performAll_cons_eq_ok hrun
    rw [ih hrun (Nat.lt_of_lt_of_le hid size_le_after), view_after hid]

theorem sameMeaning_of_performAll (h : tree.Grounded false id)
    (hrun : tree.performAll steps = .ok final) : tree.SameMeaning final id := by
  have hlike : tree.LikeBelow false final false id := fun c hc =>
    (view_performAll hrun (h.lt_size c hc)).symm
  have hsize := size_le_performAll hrun
  constructor
  case text => exact map_eq_of_view hlike.here fun _ _ => rfl
  case type => exact map_eq_of_view hlike.here fun _ node => by simp [Node.type, Node.view]
  case children => exact children_eq_of_view hlike.here
  case tagParameters => exact tagParameters_eq_of_view hlike.here
  case value =>
    obtain ⟨value, hvalue⟩ := h.value
    refine ⟨value, hvalue, ?_⟩
    unfold Tree.value
    rw [← hlike.valueWithin, valueWithin_of_size_lt (by omega)]
    exact hvalue
  case declarationIsType => exact hlike.declarationIsType
  case emission =>
    intro options htags
    apply Header.sameEmission_of_render
    exact fun room => Header.render_eq_of_likeBelow (htags ▸ h) (htags ▸ hlike) hsize room
  case ends =>
    intro options htags room
    exact Header.render_ends (htags ▸ h) room

def finishedSteps : List Step :=
  [.identifier "n", .namedType "int" 1 [0], .declaration "x" 1 none, .struct (some "s") [2]]

def finished : Tree where
  nodes := #[{ payload := .identifier none, text := some "n" },
    { payload := .typeUsage ⟨1, [0], none, none⟩, text := some "int" },
    { payload := .declaration 1 none, text := some "x" },
    { payload := .struct [2], text := some "s" }]

def laterSteps : List Step :=
  [.bindIdentifier 0 3, .resolveType 1 3, .tag "a" [0], .attachTags 2 [4], .union none [2, 0],
    .pushRoot 3, .pushRoot 5]

def reused : Tree where
  nodes := #[{ payload := .identifier (some 3), text := some "n" },
    { payload := .typeUsage ⟨1, [0], none, some 3⟩, text := some "int" },
    { payload := .declaration 1 none, text := some "x", next := some 0, tags := [4] },
    { payload := .struct [2], text := some "s", next := some 5 },
    { payload := .tag [0], text := some "a" },
    { payload := .union [2, 0], text := none }]
  roots := [3, 5]

theorem sameMeaning_reused :
    finished.Grounded false 3 ∧ finished.performAll laterSteps = .ok reused ∧
      finished.SameMeaning reused 3 := by
  have hfits : ({} : Tree).Along Fits finishedSteps := by decide
  have hrun := build_of_fits hfits
  rw [if_pos (by decide)] at hrun
  obtain ⟨tree, hbuild, _, hclosed, _⟩ := hrun
  have hfinished : build finishedSteps = .ok finished := by decide
  obtain rfl := Except.ok.inj (hfinished.symm.trans hbuild)
  have hgrounded : finished.Grounded false 3 := hclosed.grounded (by decide)
  have hrun : finished.performAll laterSteps = .ok reused := by decide
  exact ⟨hgrounded, hrun, sameMeaning_of_performAll hgrounded hrun⟩

end Tree

end DeclTree
