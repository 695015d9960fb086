import DeclTree.Proofs.Header.Prints

namespace DeclTree

abbrev Tree.Formula (tree : Tree) (id : NodeId) : Prop :=
  tree.Below (fun node => node.isExpression ∨ node.type = .tag) id

/-- Of the nodes that are rendered at the depth of their owner all but a type slot are
expressions. -/
def Tree.Leveled (tree : Tree) (id : NodeId) : Payload → Prop
  | .binary _ left _ => tree.Formula left
  | .declaration .. => ∀ slot, tree.typeUsageOf id = .ok slot →
    ∀ size ∈ slot.2.arraySizes, tree.Formula size
  | _ => True

def Payload.body? : Payload → Option (String × List NodeId × String)
  | struct members => some ("struct", members, ";\n")
  | union members => some ("union", members, ";\n")
  | enumeration constants => some ("enum", constants, ",\n")
  | _ => none

namespace Header

open Rendering

def enclosed (options : Options) (inner : Renderer) (keyword : String) (name : Option String)
    (ids : List NodeId) (ending : String) (level : Nat) : Rendering Unit := do
  heading keyword name
  indentation options level
  text "\x7b\n"
  items options inner ending ids 1 (level + 1)
  indentation options level
  text "\x7d"

def Alike (inner inner' : Renderer) : Prop :=
  ∀ c d d' l, inner c (d + 1) l = inner' c (d' + 1) l

theorem place_compatible (options : Options) :
    Compatible options (fun p p' => (p.1 = 0 ↔ p'.1 = 0) ∧ p.2 = p'.2) Eq where
  done := rfl
  text _ := rfl
  bind h h' := by rw [h, h']
  top h := h.1
  deeper h := ⟨by simp, h.2⟩
  indented h := ⟨by simp, congrArg (· + 1) h.2⟩
  indentation h := congrArg (indentation options) h.2

variable {tree : Tree} {options : Options} {inner inner' : Renderer} {id : NodeId} {node : Node}

theorem nodeWithin_place (fuel : Nat) (id : NodeId) {d d' : Nat} (hd : d = 0 ↔ d' = 0) (l : Nat) :
    nodeWithin tree options fuel id d l = nodeWithin tree options fuel id d' l := by
  induction fuel generalizing id d d' l with
  | zero => rfl
  | succ fuel ih =>
    apply (place_compatible options).nodeWith _ ⟨hd, rfl⟩
    refine ⟨fun _ _ _ _ => rfl, fun _ _ _ _ _ _ _ _ _ => rfl, ?_⟩
    rintro c - d l d' _ ⟨hd, rfl⟩
    exact ih c hd l

theorem alike_nodeWithin (fuel : Nat) :
    Alike (nodeWithin tree options fuel) (nodeWithin tree options fuel) :=
  fun c _ _ l => nodeWithin_place fuel c (by simp) l

namespace Alike

variable (h : Alike inner inner')
include h

theorem parameters (ids : List NodeId) (d d' l : Nat) :
    parameters inner ids d l = parameters inner' ids d' l := by
  unfold Header.parameters
  congr
  funext c
  exact h c d d' l

theorem tag (id : NodeId) (d d' l : Nat) : tag tree inner id d l = tag tree inner' id d' l := by
  unfold Header.tag
  congr
  funext node
  congr
  funext _
  cases node.payload with
  | tag ids =>
    cases ids with
    | nil => rfl
    | cons first rest =>
      unfold Header.tagParameters
      dsimp only
      rw [h.parameters (first :: rest) d d' l]
  | _ => rfl

theorem tagComment (node : Node) (d d' l : Nat) :
    tagComment tree options inner node d l = tagComment tree options inner' node d' l := by
  unfold Header.tagComment
  have htag : (Header.tag tree inner · d l) = (Header.tag tree inner' · d' l) :=
    funext fun c => h.tag c d d' l
  rw [htag]

theorem items (ids : List NodeId) (ending : String) (d d' l : Nat) :
    items options inner ending ids (d + 1) l = items options inner' ending ids (d' + 1) l := by
  unfold Header.items
  congr
  funext c
  rw [h c d d' l]

theorem masks (wide : Bool) (ids : List NodeId) (bit d d' l : Nat) :
    masks tree options inner wide d l bit ids = masks tree options inner' wide d' l bit ids := by
  induction ids generalizing bit with
  | nil => rfl
  | cons c rest ih =>
    unfold Header.masks
    congr
    funext flag
    rw [h.tagComment flag d d' l, ih]

theorem flags (name : Option String) (bits : List NodeId) (d d' l : Nat) :
    flags tree options inner name bits d l = flags tree options inner' name bits d' l := by
  unfold Header.flags
  rw [h.masks _ bits 0 (d + 1) (d' + 1) l]

theorem typeUsage (name : String) (usage : TypeUsage) (d d' l : Nat) :
    typeUsage inner name usage d l = typeUsage inner' name usage d' l := by
  unfold Header.typeUsage
  congr 1
  cases usage.inlineAggregate with
  | none => rfl
  | some aggregate => exact h aggregate d d' l

theorem procedure (name : String) (returnType : Option NodeId) (ids : List NodeId)
    (d d' l : Nat) :
    procedure inner name returnType ids d l = procedure inner' name returnType ids d' l := by
  have hreturned : returned inner d l returnType = returned inner' d' l returnType := by
    cases returnType with
    | none => rfl
    | some type => exact h type d d' l
  have hparameters : procedureParameters inner d l ids = procedureParameters inner' d' l ids := by
    cases ids with
    | nil => rfl
    | cons first rest => exact h.parameters (first :: rest) d d' l
  unfold Header.procedure
  rw [hreturned, hparameters]

theorem initializer (initial : Option NodeId) (d d' l : Nat) :
    initializer inner d l initial = initializer inner' d' l initial := by
  cases initial with
  | none => rfl
  | some c =>
    unfold Header.initializer
    dsimp only
    rw [h c d d' l]

theorem braced (keyword : String) (name : Option String) (ids : List NodeId) (ending : String)
    (d l : Nat) :
    braced options inner keyword name ids ending d l =
      braced options inner' keyword name ids ending d l := by
  unfold Header.braced
  rw [h.items ids ending d d (l + 1)]

end Alike

theorem nodeWithin_of_formula (fuel : Nat) (h : tree.Formula id) (d d' l : Nat) :
    nodeWithin tree options fuel id d l = nodeWithin tree options fuel id d' l := by
  induction fuel generalizing id d d' l with
  | zero => rfl
  | succ fuel ih =>
    have halike : Alike (nodeWithin tree options fuel) (nodeWithin tree options fuel) :=
      alike_nodeWithin fuel
    refine orFault_rel (fun _ _ => rfl) fun node hnode => ?_
    have hself : node.isExpression ∨ node.type = .tag := h.self hnode
    have hchild : ∀ c ∈ node.payload.children, tree.Formula c := fun c hc => h.child hnode hc
    rw [halike.tagComment node d d' l]
    congr 1
    funext _
    cases hpayload : node.payload with
    | identifier _ | numericConstant | stringConstant | charConstant => rfl
    | unary op operand =>
      dsimp only
      rw [halike operand d d' l]
    | binary op left right =>
      have hleft : tree.Formula left := hchild left (by simp [hpayload, Payload.children])
      dsimp only
      rw [ih hleft d d' l, halike right d d' l]
    | tag ids => exact halike.tag id d d' l
    | _ => simp [Node.isExpression, Node.type, Payload.type, hpayload] at hself

def below (inner : Renderer) : Renderer := fun id _ level => inner id 1 level

theorem alike_below (fuel : Nat) :
    Alike (nodeWithin tree options fuel) (below (nodeWithin tree options fuel)) :=
  fun c d _ l => alike_nodeWithin fuel c d 0 l

theorem nodeWithin_typeUsage {usage : TypeUsage} (fuel : Nat) (hnode : tree.node id = .ok node)
    (husage : node.payload = .typeUsage usage) (d d' l : Nat) :
    nodeWithin tree options fuel id d l = nodeWithin tree options fuel id d' l := by
  cases fuel with
  | zero => rfl
  | succ fuel =>
    have halike : Alike (nodeWithin tree options fuel) (nodeWithin tree options fuel) :=
      alike_nodeWithin fuel
    refine orFault_rel (fun _ _ => rfl) fun node' hnode' => ?_
    obtain rfl : node = node' := Except.ok.inj (hnode.symm.trans hnode')
    rw [halike.tagComment node d d' l, husage]
    congr 1
    funext _
    exact halike.typeUsage node.name usage d d' l

theorem declaration_below (fuel : Nat) (name : String) (initial : Option NodeId)
    (hsizes : ∀ slot, tree.typeUsageOf id = .ok slot → ∀ size ∈ slot.2.arraySizes,
      tree.Formula size) (d l : Nat) :
    declaration tree (nodeWithin tree options fuel) id name initial d l =
      declaration tree (below (nodeWithin tree options fuel)) id name initial d l := by
  refine orFault_rel (fun _ _ => rfl) fun slot hslot => ?_
  obtain ⟨_, _, slotNode, _, _, hslotNode, husage⟩ := Tree.typeUsageOf_eq_ok hslot
  have htype : nodeWithin tree options fuel slot.1 d l =
      below (nodeWithin tree options fuel) slot.1 d l :=
    nodeWithin_typeUsage fuel hslotNode husage d 1 l
  have hdimensions : slot.2.arraySizes.forM (dimension (nodeWithin tree options fuel) d l) =
      slot.2.arraySizes.forM (dimension (below (nodeWithin tree options fuel)) d l) := by
    refine (eq_compatible options).forM fun size hsize => ?_
    have hsize : nodeWithin tree options fuel size d l =
        below (nodeWithin tree options fuel) size d l :=
      nodeWithin_of_formula fuel (hsizes slot hslot size hsize) d 1 l
    unfold dimension
    rw [hsize]
  rw [htype, hdimensions, (alike_below fuel).initializer initial d d l]

theorem nodeWith_below (fuel : Nat) (hnode : tree.node id = .ok node)
    (h : tree.Leveled id node.payload) (d l : Nat) :
    nodeWith tree options (nodeWithin tree options fuel) id d l =
      nodeWith tree options (below (nodeWithin tree options fuel)) id d l := by
  have halike : Alike (nodeWithin tree options fuel) (below (nodeWithin tree options fuel)) :=
    alike_below fuel
  refine orFault_rel (fun _ _ => rfl) fun node' hnode' => ?_
  obtain rfl : node = node' := Except.ok.inj (hnode.symm.trans hnode')
  rw [halike.tagComment node d d l]
  congr 1
  funext _
  cases hpayload : node.payload with
  | identifier _ | numericConstant | stringConstant | charConstant => rfl
  | unary op operand =>
    dsimp only
    rw [halike operand d d l]
  | binary op left right =>
    rw [hpayload] at h
    have hleft : nodeWithin tree options fuel left d l =
        below (nodeWithin tree options fuel) left d l :=
      nodeWithin_of_formula fuel h d 1 l
    dsimp only
    rw [hleft, halike right d d l]
  | struct ids | union ids | enumeration ids => exact halike.braced _ node.text ids _ d l
  | flags bits => exact halike.flags node.text bits d d l
  | declaration type initial =>
    rw [hpayload] at h
    exact declaration_below fuel node.name initial h d l
  | typeUsage usage => exact halike.typeUsage node.name usage d d l
  | tag ids => exact halike.tag id d d l
  | constant expression =>
    dsimp only
    rw [halike expression d d l]
  | procedure returnType ids => exact halike.procedure node.name returnType ids d d l

variable {keyword ending : String} {name : Option String} {ids : List NodeId}

theorem braced_nested (h : Alike inner inner') (d l : Nat) :
    braced options inner keyword name ids ending (d + 1) l =
      enclosed options inner' keyword name ids ending l := by
  unfold braced
  rw [atTop_succ, atTop_succ, h.items ids ending (d + 1) 0 (l + 1), bind_done]
  rfl

theorem braced_top (h : Alike inner inner') (l : Nat) :
    braced options inner keyword name ids ending 0 l = (do
      typedefLine keyword name
      enclosed options inner' keyword name ids ending l
      text ";\n\n") := by
  unfold braced enclosed
  rw [atTop, atTop, if_pos rfl, if_pos rfl, h.items ids ending 0 0 (l + 1)]
  simp only [bind_assoc]

theorem nodeWith_body {inner : Renderer} (hnode : tree.node id = .ok node)
    (hbody : node.payload.body? = some (keyword, ids, ending)) (d l : Nat) :
    nodeWith tree options inner id d l = (do
      tagComment tree options inner node d l
      braced options inner keyword node.text ids ending d l) := by
  unfold nodeWith
  rw [hnode]
  cases hpayload : node.payload with
  | struct members | union members | enumeration constants =>
    rw [hpayload] at hbody
    obtain ⟨rfl, rfl, rfl⟩ : _ = keyword ∧ _ = ids ∧ _ = ending := by
      simpa [Payload.body?] using hbody
    simp [orFault, hpayload]
  | _ => simp [hpayload, Payload.body?] at hbody

def inside (tree : Tree) (options : Options) : Renderer := below (unbounded tree options)

theorem alike_inside : Alike (unbounded tree options) (inside tree options) := alike_below _

theorem toText_enclosed (hnode : tree.node id = .ok node)
    (hbody : node.payload.body? = some (keyword, ids, ending)) (d l : Nat) :
    (unbounded tree options id (d + 1) l).toText = Rendering.toText (do
      tagComment tree options (inside tree options) node 1 l
      enclosed options (inside tree options) keyword node.text ids ending l) := by
  rw [toText_unbounded, nodeWith_body hnode hbody, alike_inside.tagComment node (d + 1) 1 l,
    braced_nested alike_inside d l]

theorem toText_top (hnode : tree.node id = .ok node)
    (hbody : node.payload.body? = some (keyword, ids, ending)) (l : Nat) :
    (unbounded tree options id 0 l).toText = Rendering.toText (do
      tagComment tree options (inside tree options) node 1 l
      typedefLine keyword node.text
      enclosed options (inside tree options) keyword node.text ids ending l
      text ";\n\n") := by
  rw [toText_unbounded, nodeWith_body hnode hbody, alike_inside.tagComment node 0 1 l,
    braced_top alike_inside l]

theorem toText_wrapped {usage : TypeUsage} {aggregate : NodeId} (hnode : tree.node id = .ok node)
    (husage : node.payload = .typeUsage usage) (haggregate : usage.inlineAggregate = some aggregate)
    (d l : Nat) :
    (unbounded tree options id d l).toText = Rendering.toText (do
      tagComment tree options (inside tree options) node 1 l
      unbounded tree options aggregate 1 l
      text " "
      repeated "*" usage.pointerCount) := by
  have hdepth : unbounded tree options aggregate (d + 1) l = unbounded tree options aggregate 1 l :=
    alike_nodeWithin _ aggregate d 0 l
  rw [toText_unbounded]
  unfold nodeWith
  rw [hnode]
  simp only [orFault, done_bind, husage, typeUsage, haggregate, base]
  rw [alike_inside.tagComment node d 1 l, hdepth]

structure DepthLaw (tree : Tree) (options : Options) : Prop where
  nested : ∀ id d d' l,
    unbounded tree options id (d + 1) l = unbounded tree options id (d' + 1) l
  formula : ∀ id, tree.Formula id → ∀ d d' l,
    unbounded tree options id d l = unbounded tree options id d' l
  slot : ∀ id node usage, tree.node id = .ok node → node.payload = .typeUsage usage →
    ∀ d d' l, unbounded tree options id d l = unbounded tree options id d' l
  below : ∀ id node, tree.node id = .ok node → tree.Leveled id node.payload → ∀ d l,
    (unbounded tree options id d l).toText =
      (nodeWith tree options (inside tree options) id d l).toText
  enclosed : ∀ id node keyword ids ending, tree.node id = .ok node →
    node.payload.body? = some (keyword, ids, ending) → ∀ d l,
    (unbounded tree options id (d + 1) l).toText = Rendering.toText (do
      tagComment tree options (inside tree options) node 1 l
      Header.enclosed options (inside tree options) keyword node.text ids ending l)
  top : ∀ id node keyword ids ending, tree.node id = .ok node →
    node.payload.body? = some (keyword, ids, ending) → ∀ l,
    (unbounded tree options id 0 l).toText = Rendering.toText (do
      tagComment tree options (inside tree options) node 1 l
      typedefLine keyword node.text
      Header.enclosed options (inside tree options) keyword node.text ids ending l
      text ";\n\n")
  wrapped : ∀ id node usage aggregate, tree.node id = .ok node →
    node.payload = .typeUsage usage → usage.inlineAggregate = some aggregate → ∀ d l,
    (unbounded tree options id d l).toText = Rendering.toText (do
      tagComment tree options (inside tree options) node 1 l
      unbounded tree options aggregate 1 l
      text " "
      repeated "*" usage.pointerCount)

/-- The depth of a node only tells the top level from the rest, and expressions and the types of
declarations do not even show that. -/
theorem unbounded_depth (tree : Tree) (options : Options) : DepthLaw tree options where
  nested id _ _ l := alike_nodeWithin _ id _ _ l
  formula _ h d d' l := nodeWithin_of_formula _ h d d' l
  slot _ _ _ hnode husage d d' l := nodeWithin_typeUsage _ hnode husage d d' l
  below id node hnode h d l := by
    rw [toText_unbounded]
    exact congrArg Rendering.toText (nodeWith_below _ hnode h d l)
  enclosed _ _ _ _ _ hnode hbody d l := toText_enclosed hnode hbody d l
  top _ _ _ _ _ hnode hbody l := toText_top hnode hbody l
  wrapped _ _ _ _ hnode husage haggregate d l := toText_wrapped hnode husage haggregate d l

def inlined : Tree where
  nodes := #[⟨.typeUsage {}, some "int", none, []⟩, ⟨.declaration 0 none, some "x", none, []⟩,
    ⟨.struct [1], some "P", none, []⟩, ⟨.numericConstant, some "2", none, []⟩,
    ⟨.identifier none, some "n", none, []⟩, ⟨.binary .add 3 4, some "+", none, []⟩,
    ⟨.typeUsage { arraySizes := [5], inlineAggregate := some 2 }, none, none, []⟩,
    ⟨.declaration 6 none, some "p", none, []⟩]

theorem unbounded_depth_inlined :
    (∀ d d', unbounded inlined {} 5 d 0 = unbounded inlined {} 5 d' 0) ∧
    (∀ d, (unbounded inlined {} 2 (d + 1) 0).toText = .ok "struct P\n\x7b\n    int x;\n\x7d") ∧
    (unbounded inlined {} 2 0 0).toText =
      .ok "typedef struct P P;\nstruct P\n\x7b\n    int x;\n\x7d;\n\n" ∧
    (∀ d, (unbounded inlined {} 6 d 0).toText = .ok "struct P\n\x7b\n    int x;\n\x7d ") ∧
    (unbounded inlined {} 7 0 0).toText =
      .ok "struct P\n\x7b\n    int x;\n\x7d p[(2 + n)];\n" := by
  have hlaw := unbounded_depth inlined {}
  have hformula : inlined.Formula 5 := .of_closed [3, 4, 5] (by decide) (by decide)
  refine ⟨fun d d' => hlaw.formula 5 hformula d d' 0, fun d => ?_, ?_, fun d => ?_, ?_⟩
  · exact (hlaw.enclosed 2 _ _ _ _ rfl rfl d 0).trans rfl
  · exact (hlaw.top 2 _ _ _ _ rfl rfl 0).trans rfl
  · exact (hlaw.wrapped 6 _ _ _ rfl rfl rfl d 0).trans rfl
  · have hleveled : inlined.Leveled 7 (.declaration 6 none) := by
      rintro slot ⟨⟩ size hsize
      obtain rfl := List.mem_singleton.mp hsize
      exact hformula
    exact (hlaw.below 7 _ rfl hleveled 0 0).trans rfl

end Header

end DeclTree
