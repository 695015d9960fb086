import DeclTree.Proofs.Build.Linking
import DeclTree.Proofs.Edges
import DeclTree.Queries
import DeclTree.Value

namespace DeclTree

open Relation

def TypeUsage.unbound (usage : TypeUsage) : TypeUsage := { usage with definition := none }

def Payload.unbound : Payload → Payload
  | .identifier _ => .identifier none
  | .typeUsage usage => .typeUsage usage.unbound
  | payload => payload

@[simp] theorem Payload.children_unbound (payload : Payload) :
    payload.unbound.children = payload.children := by
  cases payload <;> rfl

@[simp] theorem Payload.type_unbound (payload : Payload) : payload.unbound.type = payload.type := by
  cases payload <;> rfl

/-- What is read of a node besides its place in a list, with its tags only if these are shown. -/
def Node.view (tags : Bool) (node : Node) : Node :=
  { payload := node.payload.unbound, text := node.text, tags := if tags then node.tags else [] }

namespace Tree

def view (tree : Tree) (tags : Bool) (id : NodeId) : Except Fault Node :=
  (tree.node id).map (Node.view tags)

variable {tree tree' : Tree} {tags tags' : Bool} {id c : NodeId} {node : Node} {α : Type}

theorem view_of_ok (h : tree.node id = .ok node) : tree.view tags id = .ok (node.view tags) := by
  rw [view, h]
  rfl

theorem view_eq_ok (h : tree.view tags id = .ok node) :
    ∃ whole, tree.node id = .ok whole ∧ whole.view tags = node :=
  map_eq_ok.mp h

theorem tags_of_view (h : tree.view tags id = .ok node) : node.tags = [] ∨ tags = true := by
  obtain ⟨whole, _, rfl⟩ := view_eq_ok h
  cases tags with
  | false => exact .inl rfl
  | true => exact .inr rfl

theorem edge_of_view_child (h : tree.view tags id = .ok node) (hc : c ∈ node.payload.children) :
    tree.Edge tags id c := by
  obtain ⟨whole, hwhole, rfl⟩ := view_eq_ok h
  exact edge_of_child hwhole (by simpa [Node.view] using hc)

theorem edge_of_view_tag (h : tree.view tags id = .ok node) (hc : c ∈ node.tags) :
    tree.Edge tags id c := by
  obtain ⟨whole, hwhole, rfl⟩ := view_eq_ok h
  cases tags with
  | false => cases hc
  | true => exact ⟨whole, hwhole, .inr ⟨rfl, hc⟩⟩

theorem bind_congr_of_ok {β : Type} {x : Except Fault α} {k k' : α → Except Fault β}
    (h : ∀ a, x = .ok a → k a = k' a) : (x >>= k) = x >>= k' := by
  cases x with
  | error f => rfl
  | ok a => exact h a rfl

theorem node_bind_eq_view {k : Node → Except Fault α} (hk : ∀ node, k node = k (node.view tags)) :
    (tree.node id >>= k) = tree.view tags id >>= k := by
  unfold view
  cases tree.node id with
  | error f => rfl
  | ok node => exact hk node

theorem bind_eq_of_view {k k' : Node → Except Fault α} (h : tree.view tags id = tree'.view tags' id)
    (hk : ∀ node, k node = k (node.view tags)) (hk' : ∀ node, k' node = k' (node.view tags'))
    (hview : ∀ node, tree.view tags id = .ok node → k node = k' node) :
    (tree.node id >>= k) = (tree'.node id >>= k') := by
  rw [node_bind_eq_view hk, node_bind_eq_view hk', ← h]
  exact bind_congr_of_ok hview

theorem map_eq_of_view {f : Node → α} (h : tree.view tags id = tree'.view tags' id)
    (hf : ∀ tags node, f node = f (node.view tags)) :
    (tree.node id).map f = (tree'.node id).map f :=
  bind_eq_of_view h (fun node => congrArg Except.ok (hf tags node))
    (fun node => congrArg Except.ok (hf tags' node)) fun _ _ => rfl

theorem children_eq_of_view (h : tree.view tags id = tree'.view tags' id) :
    tree.children id = tree'.children id :=
  map_eq_of_view h fun tags node => by simp [Node.view]

theorem tagParameters_eq_of_view (h : tree.view tags id = tree'.view tags' id) :
    tree.tagParameters id = tree'.tagParameters id := by
  refine bind_eq_of_view h ?_ ?_ fun _ _ => rfl
  all_goals
    rintro ⟨payload, text, next, all⟩
    cases payload <;> rfl

theorem firstTag_eq_of_view (name : String) {ids : List NodeId}
    (h : ∀ c ∈ ids, tree.view tags c = tree'.view tags' c) :
    tree.firstTag name ids = tree'.firstTag name ids := by
  induction ids with
  | nil => rfl
  | cons c rest ih =>
    have hrest := ih fun e he => h e (List.mem_cons_of_mem c he)
    refine bind_eq_of_view (h c List.mem_cons_self) (fun _ => rfl) (fun _ => rfl) fun node _ => ?_
    rw [hrest]

def LikeBelow (tree : Tree) (tags : Bool) (tree' : Tree) (tags' : Bool) (id : NodeId) : Prop :=
  ∀ c, ReflTransGen (tree.Edge tags) id c → tree.view tags c = tree'.view tags' c

namespace LikeBelow

theorem here (h : tree.LikeBelow tags tree' tags' id) : tree.view tags id = tree'.view tags' id :=
  h id .refl

theorem step (h : tree.LikeBelow tags tree' tags' id) (hc : tree.Edge tags id c) :
    tree.LikeBelow tags tree' tags' c :=
  fun e he => h e (he.head hc)

theorem child (h : tree.LikeBelow tags tree' tags' id) (hnode : tree.view tags id = .ok node)
    (hc : c ∈ node.payload.children) : tree.LikeBelow tags tree' tags' c :=
  h.step (edge_of_view_child hnode hc)

end LikeBelow

def viewedSlot (tree : Tree) (tags : Bool) (id : NodeId) : Except Fault (NodeId × TypeUsage) := do
  let node ← tree.view tags id
  match node.payload with
  | .declaration type _ =>
    let slot ← tree.view tags type
    match slot.payload with
    | .typeUsage usage => return (type, usage)
    | _ => throw (.typeSlot id slot.type)
  | _ => throw (.notDeclaration id node.type)

theorem typeUsageOf_eq_viewedSlot (tags : Bool) :
    (tree.typeUsageOf id).map (fun slot => (slot.1, slot.2.unbound)) = tree.viewedSlot tags id := by
  unfold typeUsageOf viewedSlot view
  cases tree.node id with
  | error f => rfl
  | ok node =>
    obtain ⟨payload, text, next, all⟩ := node
    cases payload with
    | declaration type initial =>
      change (tree.node type >>= _).map _ = (tree.node type).map (Node.view tags) >>= _
      cases tree.node type with
      | error f => rfl
      | ok slot =>
        obtain ⟨payload, text, next, all⟩ := slot
        cases payload <;> rfl
    | _ => rfl

theorem typeUsageOf_bind_eq_viewedSlot {k : NodeId × TypeUsage → Except Fault α}
    (hk : ∀ slot, k slot = k (slot.1, slot.2.unbound)) :
    (tree.typeUsageOf id >>= k) = tree.viewedSlot tags id >>= k := by
  rw [← typeUsageOf_eq_viewedSlot tags]
  cases tree.typeUsageOf id with
  | error f => rfl
  | ok slot => exact hk slot

theorem viewedSlot_eq_ok {slot : NodeId × TypeUsage} (h : tree.viewedSlot tags id = .ok slot) :
    ∃ node initial, tree.view tags id = .ok node ∧ node.payload = .declaration slot.1 initial := by
  obtain ⟨node, hnode, h⟩ := bind_eq_ok.mp h
  refine ⟨node, ?_⟩
  cases hp : node.payload with
  | declaration type initial =>
    rw [hp] at h
    obtain ⟨target, _, h⟩ := bind_eq_ok.mp h
    cases hu : target.payload with
    | typeUsage usage =>
      rw [hu] at h
      obtain rfl := Except.ok.inj h
      exact ⟨initial, hnode, rfl⟩
    | _ => rw [hu] at h; cases h
  | _ => rw [hp] at h; cases h

namespace LikeBelow

theorem viewedSlot (h : tree.LikeBelow tags tree' tags' id) :
    tree.viewedSlot tags id = tree'.viewedSlot tags' id := by
  unfold Tree.viewedSlot
  rw [← h.here]
  refine bind_congr_of_ok fun node hnode => ?_
  cases hp : node.payload with
  | declaration type initial =>
    have htype := (h.child (c := type) hnode (by simp [hp, Payload.children])).here
    dsimp only
    rw [htype]
  | _ => rfl

theorem typeUsageOf_bind_eq {k k' : NodeId × TypeUsage → Except Fault α}
    (h : tree.LikeBelow tags tree' tags' id) (hk : ∀ slot, k slot = k (slot.1, slot.2.unbound))
    (hk' : ∀ slot, k' slot = k' (slot.1, slot.2.unbound))
    (hview : ∀ slot, tree.viewedSlot tags id = .ok slot → k slot = k' slot) :
    (tree.typeUsageOf id >>= k) = (tree'.typeUsageOf id >>= k') := by
  rw [typeUsageOf_bind_eq_viewedSlot hk, typeUsageOf_bind_eq_viewedSlot hk', ← h.viewedSlot]
  exact bind_congr_of_ok hview

theorem typeSlot (h : tree.LikeBelow tags tree' tags' id) :
    (tree.typeUsageOf id).map Prod.fst = (tree'.typeUsageOf id).map Prod.fst :=
  typeUsageOf_bind_eq h (fun _ => rfl) (fun _ => rfl) fun _ _ => rfl

theorem declarationIsType (h : tree.LikeBelow tags tree' tags' id) (signature : String) :
    tree.declarationIsType id signature = tree'.declarationIsType id signature := by
  refine bind_eq_of_view h.here ?_ ?_ fun node hnode => ?_
  · rintro ⟨payload, text, next, all⟩
    cases payload <;> rfl
  · rintro ⟨payload, text, next, all⟩
    cases payload <;> rfl
  cases hp : node.payload with
  | declaration type initial =>
    refine typeUsageOf_bind_eq h (fun _ => rfl) (fun _ => rfl) fun slot hslot => ?_
    obtain ⟨owner, initial', howner, hpayload⟩ := viewedSlot_eq_ok hslot
    have htype := (h.child (c := slot.1) howner (by simp [hpayload, Payload.children])).here
    exact bind_eq_of_view htype (fun _ => rfl) (fun _ => rfl) fun _ _ => rfl
  | _ => rfl

theorem valueWithin (h : tree.LikeBelow tags tree' tags' id) (fuel : Nat) :
    tree.valueWithin fuel id = tree'.valueWithin fuel id := by
  induction fuel generalizing id with
  | zero => rfl
  | succ fuel ih =>
    refine bind_eq_of_view h.here ?_ ?_ fun node hnode => ?_
    · rintro ⟨payload, text, next, all⟩
      cases payload <;> rfl
    · rintro ⟨payload, text, next, all⟩
      cases payload <;> rfl
    · have hchild (c : NodeId) (hc : c ∈ node.payload.children) :
          tree.valueWithin fuel c = tree'.valueWithin fuel c := ih (h.child hnode hc)
      cases hp : node.payload with
      | unary op operand =>
        dsimp only
        rw [hchild operand (by simp [hp, Payload.children])]
      | binary op left right =>
        dsimp only
        rw [hchild left (by simp [hp, Payload.children]),
          hchild right (by simp [hp, Payload.children])]
      | _ => rfl

end LikeBelow

structure Like (tree : Tree) (tags : Bool) (tree' : Tree) (tags' : Bool) : Prop where
  size : tree.size = tree'.size
  roots : tree.roots = tree'.roots
  next : ∀ id, (tree.node id).map Node.next = (tree'.node id).map Node.next
  view : ∀ id, tree.view tags id = tree'.view tags' id

theorem siblings_succ (limit : Nat) (id : NodeId) :
    tree.siblings (limit + 1) id = do
      match ← (tree.node id).map Node.next with
      | none => return [id]
      | some next => return id :: (← tree.siblings limit next) := by
  rw [Tree.siblings]
  cases tree.node id <;> rfl

namespace Like

theorem symm (h : tree.Like tags tree' tags') : tree'.Like tags' tree tags where
  size := h.size.symm
  roots := h.roots.symm
  next id := (h.next id).symm
  view id := (h.view id).symm

theorem trans {tree'' : Tree} {tags'' : Bool} (h : tree.Like tags tree' tags')
    (h' : tree'.Like tags' tree'' tags'') : tree.Like tags tree'' tags'' where
  size := h.size.trans h'.size
  roots := h.roots.trans h'.roots
  next id := (h.next id).trans (h'.next id)
  view id := (h.view id).trans (h'.view id)

theorem mapNodes {f : Node → Node} (hnext : ∀ node, (f node).next = node.next)
    (hview : ∀ node, (f node).view tags = node.view tags') :
    (tree.mapNodes fun _ => f).Like tags tree tags' where
  size := size_mapNodes
  roots := rfl
  next id := by
    rw [node_mapNodes]
    cases tree.node id with
    | error f => rfl
    | ok node => exact congrArg Except.ok (hnext node)
  view id := by
    unfold Tree.view
    rw [node_mapNodes]
    cases tree.node id with
    | error f => rfl
    | ok node => exact congrArg Except.ok (hview node)

theorem below (h : tree.Like tags tree' tags') (id : NodeId) :
    tree.LikeBelow tags tree' tags' id :=
  fun c _ => h.view c

theorem siblings (h : tree.Like tags tree' tags') (limit : Nat) (id : NodeId) :
    tree.siblings limit id = tree'.siblings limit id := by
  induction limit generalizing id with
  | zero => rfl
  | succ limit ih =>
    have hlater : tree.siblings limit = tree'.siblings limit := funext ih
    rw [siblings_succ, siblings_succ, h.next, hlater]

theorem findTag (h : tree.Like true tree' true) (id : NodeId) (name : String) :
    tree.findTag id name = tree'.findTag id name :=
  bind_eq_of_view (h.view id) (fun _ => rfl) (fun _ => rfl) fun _ _ =>
    firstTag_eq_of_view name fun c _ => h.view c

end Like

end Tree

end DeclTree
