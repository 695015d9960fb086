import DeclTree.Header.Emit
import DeclTree.Proofs.Header.Chain
import DeclTree.Proofs.View

namespace DeclTree

def Tree.untagged (tree : Tree) : Tree := tree.mapNodes fun _ node => { node with tags := [] }

namespace Header

open Rendering Relation

variable {tree tree' : Tree} {options : Options} {tags tags' shown : Bool} {inner inner' : Renderer}
  {id : NodeId}

theorem node_bind_eq_view {k : Node → Rendering Unit} (hk : ∀ node, k node = k (node.view tags)) :
    (orFault (tree.node id) >>= k) = orFault (tree.view tags id) >>= k := by
  unfold Tree.view
  cases tree.node id with
  | error f => rfl
  | ok node => exact hk node

theorem bind_eq_of_view {k k' : Node → Rendering Unit}
    (h : tree.view tags id = tree'.view tags' id) (hk : ∀ node, k node = k (node.view tags))
    (hk' : ∀ node, k' node = k' (node.view tags'))
    (hview : ∀ node, tree.view tags id = .ok node → k node = k' node) :
    (orFault (tree.node id) >>= k) = (orFault (tree'.node id) >>= k') := by
  rw [node_bind_eq_view hk, node_bind_eq_view hk', ← h]
  exact orFault_rel (fun _ _ => rfl) hview

theorem slot_bind_eq_view {k : NodeId × TypeUsage → Rendering Unit}
    (hk : ∀ slot, k slot = k (slot.1, slot.2.unbound)) :
    (orFault (tree.typeUsageOf id) >>= k) = orFault (tree.viewedSlot tags id) >>= k := by
  rw [← Tree.typeUsageOf_eq_viewedSlot tags]
  cases tree.typeUsageOf id with
  | error f => rfl
  | ok slot => exact hk slot

theorem tag_eq_of_view (h : tree.view tags id = tree'.view tags' id) (d l : Nat) :
    tag tree inner id d l = tag tree' inner id d l := by
  refine bind_eq_of_view h ?_ ?_ fun _ _ => rfl
  all_goals
    rintro ⟨payload, text, next, all⟩
    cases payload <;> rfl

theorem tagComment_view (options : Options) (node : Node) (d l : Nat) :
    tagComment tree options inner node d l =
      tagComment tree options inner (node.view options.tagComments) d l := by
  unfold tagComment Node.view
  cases options.tagComments <;> rfl

section Below

variable (h : tree.LikeBelow options.tagComments tree' shown id)
include h

theorem tagComment_eq_of_view {node : Node} (hnode : tree.view options.tagComments id = .ok node)
    (d l : Nat) :
    tagComment tree options inner node d l =
      tagComment tree' { options with tagComments := shown } inner node d l := by
  unfold tagComment
  rcases Tree.tags_of_view hnode with hnil | hon
  · simp [hnil]
  rcases Tree.tags_of_view (h.here.symm.trans hnode) with hnil | hon'
  · simp [hnil]
  have htag (t : NodeId) (ht : t ∈ node.tags) : tag tree inner t d l = tag tree' inner t d l :=
    tag_eq_of_view (h.step (Tree.edge_of_view_tag hnode ht)).here d l
  have hall : separated " " (tag tree inner · d l) node.tags =
      separated " " (tag tree' inner · d l) node.tags :=
    (eq_compatible options).separated " " htag
  rw [hall, hon, hon']
  rfl

theorem masks_eq_of_view {ids : List NodeId} (wide : Bool) (bit d l : Nat)
    (hids : ∀ c ∈ ids, tree.Edge options.tagComments id c) :
    masks tree options inner wide d l bit ids =
      masks tree' { options with tagComments := shown } inner wide d l bit ids := by
  induction ids generalizing bit with
  | nil => rfl
  | cons c rest ih =>
    have hc := h.step (hids c List.mem_cons_self)
    have hrest := ih (bit + 1) fun e he => hids e (List.mem_cons_of_mem c he)
    refine bind_eq_of_view hc.here (fun node => ?_) (fun node => ?_) fun node hnode => ?_
    · rw [tagComment_view]
      rfl
    · rw [tagComment_view]
      rfl
    · rw [hrest, tagComment_eq_of_view hc hnode]

theorem declaration_eq_of_view (name : String) (initial : Option NodeId) (d l : Nat) :
    declaration tree inner id name initial d l = declaration tree' inner id name initial d l := by
  unfold declaration
  rw [slot_bind_eq_view fun _ => rfl, slot_bind_eq_view fun _ => rfl, h.viewedSlot]

theorem nodeWith_eq_of_view
    (hinner : ∀ c, TransGen (tree.Edge options.tagComments) id c → ∀ d l, inner c d l = inner' c d l)
    (d l : Nat) :
    nodeWith tree options inner id d l =
      nodeWith tree' { options with tagComments := shown } inner' id d l := by
  -- first exchange what renders the nodes below, then compare what is read of the node itself
  have hcalls : nodeWith tree options inner id d l = nodeWith tree options inner' id d l := by
    refine (eq_compatible options).nodeWith ⟨fun _ _ _ _ => rfl, fun _ _ _ _ _ _ _ _ _ => rfl, ?_⟩ rfl
    rintro c hc d l _ _ ⟨⟩
    exact hinner c hc d l
  rw [hcalls]
  refine bind_eq_of_view h.here (fun node => ?_) (fun node => ?_) fun node hnode => ?_
  · rw [tagComment_view]
    obtain ⟨payload, text, next, all⟩ := node
    cases payload <;> rfl
  · rw [tagComment_view]
    obtain ⟨payload, text, next, all⟩ := node
    cases payload <;> rfl
  rw [tagComment_eq_of_view h hnode]
  congr 1
  funext _
  cases hp : node.payload with
  | flags bits =>
    have hbits (c : NodeId) (hc : c ∈ bits) : tree.Edge options.tagComments id c :=
      Tree.edge_of_view_child hnode (by simpa [hp, Payload.children] using hc)
    change flags .. = flags ..
    unfold flags
    rw [masks_eq_of_view h _ _ _ _ hbits]
    rfl
  | declaration type initial => exact declaration_eq_of_view h node.name initial d l
  | tag _ => exact tag_eq_of_view h.here d l
  | _ => rfl

theorem nodeWithin_eq_of_view (fuel d l : Nat) :
    nodeWithin tree options fuel id d l =
      nodeWithin tree' { options with tagComments := shown } fuel id d l := by
  induction fuel generalizing id d l with
  | zero => rfl
  | succ fuel ih =>
    refine nodeWith_eq_of_view h (fun c hc d l => ?_) d l
    exact ih (fun e he => h e (hc.to_reflTransGen.trans he)) d l

end Below

structure SameEmission (tree : Tree) (options : Options) (tree' : Tree) (options' : Options)
    (id : NodeId) (follow : Bool) : Prop where
  text : emitText tree options id follow = emitText tree' options' id follow
  sink : ∀ {σ : Type} [Sink σ] (out : σ),
    emit tree options id follow out = emit tree' options' id follow out
  device : ∀ device,
    emitToDevice tree options id follow device = emitToDevice tree' options' id follow device

theorem sameEmission_of_render {options' : Options} {follow : Bool}
    (hrender : ∀ room, render tree options room id follow = render tree' options' room id follow) :
    SameEmission tree options tree' options' id follow := by
  have hsink {σ : Type} [Sink σ] (out : σ) :
      emit tree options id follow out = emit tree' options' id follow out :=
    congrArg (Rendering.into · out) (hrender (Sink.room out))
  refine ⟨congrArg toText (hrender none), hsink, fun device => ?_⟩
  unfold emitToDevice
  rw [hsink]

theorem chainWithin_eq_of_next {node node' : NodeId → Rendering Unit}
    (hnext : ∀ id, (tree.node id).map Node.next = (tree'.node id).map Node.next)
    (hnode : ∀ id, node id = node' id) (fuel : Nat) (id : NodeId) :
    chainWithin tree node fuel id = chainWithin tree' node' fuel id := by
  induction fuel generalizing id with
  | zero => rfl
  | succ fuel ih =>
    have h := hnext id
    cases hn : tree.node id with
    | error f =>
      rw [hn] at h
      rw [chainWithin_of_missing hn, chainWithin_of_missing (map_eq_error.mp h.symm)]
    | ok n =>
      rw [hn] at h
      obtain ⟨n', hn', hsame⟩ := map_eq_ok.mp h.symm
      cases hlast : n.next with
      | none =>
        rw [chainWithin_of_last hn hlast, chainWithin_of_last hn' (hsame.trans hlast), hnode]
      | some next =>
        rw [chainWithin_of_next hn hlast, chainWithin_of_next hn' (hsame.trans hlast), hnode, ih]

theorem render_eq_of_like (hlike : tree.Like options.tagComments tree' shown) (room : Option Nat)
    (id : NodeId) (follow : Bool) :
    render tree options room id follow =
      render tree' { options with tagComments := shown } room id follow := by
  have hnode (fuel : Nat) (id : NodeId) :
      nodeWithin tree options fuel id 0 0 =
        nodeWithin tree' { options with tagComments := shown } fuel id 0 0 :=
    nodeWithin_eq_of_view (hlike.below id) fuel 0 0
  unfold render renderWithin fuelFor
  rw [hlike.size]
  cases follow with
  | false => exact hnode _ id
  | true => exact chainWithin_eq_of_next hlike.next (hnode _) _ id

theorem compile_eq_of_like (hlike : tree.Like options.tagComments tree' shown) :
    compile tree options = compile tree' { options with tagComments := shown } := by
  unfold compile document Tree.firstRoot
  rw [hlike.roots]
  cases tree'.roots.head? with
  | none => rfl
  | some root =>
    dsimp only
    rw [render_eq_of_like hlike]
    rfl

theorem like_untagged (tree : Tree) (tags : Bool) : tree.Like false tree.untagged tags := by
  apply Tree.Like.symm
  exact .mapNodes (fun _ => rfl) fun node => by cases tags <;> rfl

theorem emission_withoutTagComments (tree : Tree) (options : Options) :
    (∀ id follow, SameEmission tree (options.set .withoutTagComments) tree.untagged options id
      follow) ∧
    compile tree (options.set .withoutTagComments) = compile tree.untagged options := by
  have hlike : tree.Like (options.set .withoutTagComments).tagComments tree.untagged
      options.tagComments := like_untagged tree options.tagComments
  constructor
  · intro id follow
    apply sameEmission_of_render
    intro room
    exact render_eq_of_like hlike room id follow
  · exact compile_eq_of_like hlike

end Header

end DeclTree
