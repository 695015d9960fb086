import DeclTree.Proofs.Build.Linking

namespace DeclTree

def Payload.refer (target : NodeId) : Payload → Payload
  | .identifier _ => .identifier (some target)
  | .typeUsage usage => .typeUsage { usage with definition := some target }
  | payload => payload

def Tree.tagsAt (tree : Tree) (id : NodeId) : List NodeId := (tree.nodes[id]?.map Node.tags).getD []

namespace Step

def created (size : Nat) : Step → List Node
  | .identifier name => [{ payload := .identifier none, text := name }]
  | .numeric text => [{ payload := .numericConstant, text }]
  | .string text => [{ payload := .stringConstant, text }]
  | .char text => [{ payload := .charConstant, text }]
  | .unary op operand => [{ payload := .unary op operand, text := op.spelling }]
  | .binary op left right => [{ payload := .binary op left right, text := op.spelling }]
  | .struct name members => [{ payload := .struct members, text := name }]
  | .union name members => [{ payload := .union members, text := name }]
  | .enumeration name names =>
    names.map (fun name => { payload := .identifier none, text := some name }) ++
      [{ payload := .enumeration (List.range' size names.length), text := name }]
  | .flags name names =>
    names.map (fun name => { payload := .identifier none, text := some name }) ++
      [{ payload := .flags (List.range' size names.length), text := name }]
  | .namedType name pointerCount arraySizes =>
    [{ payload := .typeUsage { pointerCount, arraySizes }, text := name }]
  | .inlineType aggregate pointerCount arraySizes =>
    [{ payload := .typeUsage { pointerCount, arraySizes, inlineAggregate := aggregate }, text := none }]
  | .declaration name type initializer =>
    [{ payload := .declaration type initializer, text := name }]
  | .tag text parameters => [{ payload := .tag parameters, text }]
  | .constant name expression => [{ payload := .constant expression, text := name }]
  | .procedure name returnType parameters =>
    [{ payload := .procedure returnType parameters, text := name }]
  | .bindIdentifier .. | .resolveType .. | .attachTags .. | .pushRoot _ => []

def count : Step → Nat
  | .enumeration _ names | .flags _ names => names.length + 1
  | .bindIdentifier .. | .resolveType .. | .attachTags .. | .pushRoot _ => 0
  | _ => 1

theorem length_created (step : Step) (size : Nat) : (step.created size).length = step.count := by
  cases step <;> simp [created, count]

def listed (size : Nat) : Step → List NodeId
  | .struct _ list | .union _ list | .namedType _ _ list | .inlineType _ _ list
  | .tag _ list | .procedure _ _ list | .attachTags _ list => list
  | .enumeration _ names | .flags _ names => List.range' size names.length
  | .pushRoot id => [id]
  | _ => []

def chain (tree : Tree) : Step → List NodeId
  | .attachTags id tags => tree.tagsAt id ++ tags
  | .pushRoot id => tree.roots.getLast?.toList ++ [id]
  | step => step.listed tree.size

def touched (id : NodeId) (node : Node) : Step → Node
  | .bindIdentifier i target | .resolveType i target =>
    if id = i then { node with payload := node.payload.refer target } else node
  | .attachTags i tags => if id = i then { node with tags := node.tags ++ tags } else node
  | _ => node

def rooted : Step → List NodeId
  | .pushRoot id => [id]
  | _ => []

end Step

namespace Tree

def after (tree : Tree) (step : Step) : Tree :=
  { (tree.append (step.created tree.size)).mapNodes
      fun id node => chained (step.chain tree) id (step.touched id node) with
    roots := tree.roots ++ step.rooted }

variable {tree next : Tree} {id target : NodeId} {answer : Option NodeId} {step : Step}

theorem append_nil : tree.append [] = tree := by
  simp [append]

theorem after_of_constructor (htouched : ∀ id node, step.touched id node = node)
    (hrooted : step.rooted = []) :
    tree.after step =
      (tree.append (step.created tree.size)).mapNodes (chained (step.chain tree)) := by
  simp only [after, htouched, hrooted, List.append_nil]
  rfl

theorem after_of_change (hcreated : step.created tree.size = []) :
    tree.after step = { tree.mapNodes
        fun id node => chained (step.chain tree) id (step.touched id node) with
      roots := tree.roots ++ step.rooted } := by
  rw [after, hcreated, append_nil]

theorem pushOwner_eq_ok_iff {payload : List NodeId → Payload} {text : Option String}
    {list : List NodeId} :
    tree.pushOwner payload text list = .ok (next, id) ↔
      (∀ id ∈ list.dropLast, id < tree.size) ∧ tree.HasRoom 1 ∧ id = tree.size ∧
        next = (tree.append [{ payload := payload list, text }]).mapNodes (chained list) := by
  -- the new node itself is not linked on
  have hnew (h : ∀ id ∈ list.dropLast, id < tree.size) :
      (tree.mapNodes (chained list)).append [{ payload := payload list, text }] =
        (tree.append [{ payload := payload list, text }]).mapNodes (chained list) := by
    refine ext_nodes rfl fun i => ?_
    rw [getElem?_mapNodes]
    rcases Nat.lt_or_ge i tree.size with hi | hi
    · rw [getElem?_append_of_lt hi, getElem?_append_of_lt (by simpa using hi), getElem?_mapNodes]
    · obtain ⟨k, rfl⟩ := Nat.exists_eq_add_of_le hi
      have hk := getElem?_append_size (tree.mapNodes (chained list))
        [{ payload := payload list, text }] k
      rw [size_mapNodes] at hk
      rw [hk, getElem?_append_size]
      cases k with
      | zero =>
        have hmem : tree.size ∉ list.dropLast := fun hm => Nat.lt_irrefl _ (h _ hm)
        exact congrArg some (chained_of_notMem hmem _).symm
      | succ k => rfl
  constructor
  · intro h
    obtain ⟨linked, hlink, h⟩ := bind_eq_ok.mp h
    obtain ⟨hlist, rfl⟩ := link_eq_ok_iff.mp hlink
    obtain ⟨hroom, rfl, rfl⟩ := push_eq_ok_iff.mp h
    exact ⟨hlist, hasRoom_mapNodes.mp hroom, size_mapNodes, hnew hlist⟩
  · rintro ⟨hlist, hroom, rfl, rfl⟩
    refine bind_eq_ok.mpr ⟨_, link_eq_ok_iff.mpr ⟨hlist, rfl⟩, ?_⟩
    rw [← hnew hlist]
    exact push_eq_ok_iff.mpr ⟨hasRoom_mapNodes.mpr hroom, rfl, size_mapNodes.symm⟩

theorem pushIdentifiers_eq (names : List String) :
    tree.pushIdentifiers names =
      if tree.HasRoom names.length then
        .ok (tree.append (names.map fun name => { payload := .identifier none, text := some name }),
          List.range' tree.size names.length)
      else .error .tooManyNodes := by
  induction names generalizing tree with
  | nil =>
    rw [if_pos (.inl rfl)]
    exact congrArg (fun t => Except.ok (t, [])) append_nil.symm
  | cons name rest ih =>
    let identifier : Node := { payload := .identifier none, text := some name }
    have hcount : tree.HasRoom (rest.length + 1) ↔
        tree.HasRoom 1 ∧ (tree.append [identifier]).HasRoom rest.length := by
      have hone : [identifier].length = 1 := rfl
      rw [Nat.add_comm, ← hone]
      exact hasRoom_length_add
    rw [pushIdentifiers, push_eq, List.length_cons]
    by_cases hone : tree.HasRoom 1
    · simp only [hcount, hone, true_and]
      change (pushIdentifiers _ rest >>= _) = _
      rw [ih]
      split
      · rw [append_append, size_append]
        rfl
      · rfl
    · simp only [hcount, hone, false_and, if_false]
      rfl

theorem pushOwner_eq {payload : List NodeId → Payload} {text : Option String} {list : List NodeId}
    (h : ∀ id ∈ list, id < tree.size) :
    tree.pushOwner payload text list =
      if tree.HasRoom 1 then
        .ok ((tree.append [{ payload := payload list, text }]).mapNodes (chained list), tree.size)
      else .error .tooManyNodes := by
  have hlist : ∀ id ∈ list.dropLast, id < tree.size := fun id hid =>
    h id (List.dropLast_subset list hid)
  split
  case isTrue hroom => exact pushOwner_eq_ok_iff.mpr ⟨hlist, hroom, rfl, rfl⟩
  case isFalse hroom =>
    have hlink : tree.link list = .ok (tree.mapNodes (chained list)) := link_eq_ok_iff.mpr ⟨hlist, rfl⟩
    rw [pushOwner, hlink]
    change push _ _ _ = _
    rw [push_eq, if_neg (mt hasRoom_mapNodes.mp hroom)]

theorem pushNames_eq {payload : List NodeId → Payload} {text : String} {names : List String} :
    tree.pushNames payload text names =
      if tree.HasRoom (names.length + 1) then
        .ok ((tree.append
              (names.map (fun name => { payload := .identifier none, text := some name }) ++
                [{ payload := payload (List.range' tree.size names.length), text }])).mapNodes
            (chained (List.range' tree.size names.length)), tree.size + names.length)
      else .error .tooManyNodes := by
  let identifiers : List Node :=
    names.map fun name => { payload := .identifier none, text := some name }
  have hlength : identifiers.length = names.length := List.length_map _
  have hcount : tree.HasRoom (names.length + 1) ↔
      tree.HasRoom names.length ∧ (tree.append identifiers).HasRoom 1 := by
    rw [← hlength]
    exact hasRoom_length_add
  rw [pushNames, pushIdentifiers_eq]
  by_cases hnames : tree.HasRoom names.length
  · rw [if_pos hnames]
    change (tree.append identifiers).pushOwner payload (some text) _ = _
    rw [pushOwner_eq]
    · simp only [hcount, hnames, true_and, append_append, size_append, hlength]
      rfl
    · intro id hid
      rw [size_append, hlength]
      exact (List.mem_range'_1.mp hid).2
  · rw [if_neg hnames, if_neg fun h => hnames (hcount.mp h).1]
    rfl

theorem added_eq_ok {result : Except Fault (Tree × NodeId)}
    (h : added result = .ok (next, answer)) : ∃ id, result = .ok (next, id) := by
  obtain ⟨⟨tree, id⟩, hresult, ⟨⟩⟩ := map_eq_ok.mp h
  exact ⟨id, hresult⟩

theorem changed_eq_ok {result : Except Fault Tree}
    (h : changed result = .ok (next, answer)) : result = .ok next := by
  obtain ⟨tree, hresult, ⟨⟩⟩ := map_eq_ok.mp h
  exact hresult

theorem replace_eq_after {node : Node} (h : tree.nodes[id]? = some node) :
    tree.replace id { node with payload := node.payload.refer target } =
      tree.after (.bindIdentifier id target) := by
  rw [after_of_change rfl,
    replace_eq_mapNodes (f := fun _ n => { n with payload := n.payload.refer target }) h]
  exact ext_nodes (List.append_nil _).symm fun _ => rfl

/-- To bind an identifier and to resolve a type are the same change, each for a type of its own. -/
def referAt (tree : Tree) (type : NodeType) (mismatch : NodeType → Fault) (id target : NodeId) :
    Except Fault Tree := do
  let node ← tree.nodeToChange id
  if node.type = type then
    return tree.replace id { node with payload := node.payload.refer target }
  else throw (mismatch node.type)

theorem bindIdentifier_eq_referAt :
    tree.bindIdentifier id target = tree.referAt .identifier .notBindable id target := by
  unfold bindIdentifier referAt
  cases tree.nodeToChange id with
  | error f => rfl
  | ok node =>
    obtain ⟨payload, text, next, tags⟩ := node
    cases payload <;> rfl

theorem resolveType_eq_referAt :
    tree.resolveType id target = tree.referAt .typeUsage .notResolvable id target := by
  unfold resolveType referAt
  cases tree.nodeToChange id with
  | error f => rfl
  | ok node =>
    obtain ⟨payload, text, next, tags⟩ := node
    cases payload <;> rfl

theorem referAt_eq_ok_iff {type : NodeType} {mismatch : NodeType → Fault} :
    tree.referAt type mismatch id target = .ok next ↔
      (∃ node, tree.nodes[id]? = some node ∧ node.type = type) ∧
        next = tree.after (.bindIdentifier id target) := by
  constructor
  · intro h
    obtain ⟨node, hnode, h⟩ := bind_eq_ok.mp h
    rw [nodeToChange_eq_ok_iff] at hnode
    rw [← replace_eq_after hnode]
    by_cases htype : node.type = type
    · rw [if_pos htype] at h
      exact ⟨⟨node, hnode, htype⟩, (Except.ok.inj h).symm⟩
    · rw [if_neg htype] at h
      cases h
  · rintro ⟨⟨node, hnode, htype⟩, rfl⟩
    refine bind_eq_ok.mpr ⟨node, nodeToChange_eq_ok_iff.mpr hnode, ?_⟩
    rw [if_pos htype, ← replace_eq_after hnode]
    rfl

theorem bindIdentifier_eq_ok_iff :
    tree.bindIdentifier id target = .ok next ↔
      (∃ node, tree.nodes[id]? = some node ∧ node.type = .identifier) ∧
        next = tree.after (.bindIdentifier id target) := by
  rw [bindIdentifier_eq_referAt, referAt_eq_ok_iff]

theorem resolveType_eq_ok_iff :
    tree.resolveType id target = .ok next ↔
      (∃ node, tree.nodes[id]? = some node ∧ node.type = .typeUsage) ∧
        next = tree.after (.resolveType id target) := by
  rw [resolveType_eq_referAt, referAt_eq_ok_iff]
  rfl

theorem attachTags_eq_ok_iff {tags : List NodeId} :
    tree.attachTags id tags = .ok next ↔
      (id < tree.size ∧ ∀ tag ∈ (tree.tagsAt id ++ tags).dropLast, tag < tree.size) ∧
        next = tree.after (.attachTags id tags) := by
  -- the node is looked up again once its tags are chained, since it may be one of them
  have hreplace {node : Node} (hnode : tree.nodes[id]? = some node) :
      (tree.mapNodes (chained (tree.tagsAt id ++ tags))).replace id
          { chained (tree.tagsAt id ++ tags) id node with tags := tree.tagsAt id ++ tags } =
        tree.after (.attachTags id tags) := by
    have htags : tree.tagsAt id = node.tags := by rw [tagsAt, hnode]; rfl
    have hlinked : (tree.mapNodes (chained (tree.tagsAt id ++ tags))).nodes[id]? =
        some (chained (tree.tagsAt id ++ tags) id node) := by rw [getElem?_mapNodes, hnode]; rfl
    rw [replace_eq_mapNodes (f := fun _ n => { n with tags := tree.tagsAt id ++ tags }) hlinked,
      mapNodes_mapNodes, after_of_change rfl]
    refine (mapNodes_congr fun i n hn => ?_).trans
      (ext_nodes (List.append_nil _).symm fun _ => rfl)
    by_cases hi : i = id
    · subst hi
      rw [hnode] at hn
      cases hn
      simp [Step.touched, chained, Step.chain, htags]
    · simp [Step.touched, chained, Step.chain, hi]
  constructor
  · intro h
    obtain ⟨node, hnode, h⟩ := bind_eq_ok.mp h
    rw [nodeToChange_eq_ok_iff] at hnode
    have htags : node.tags = tree.tagsAt id := by rw [tagsAt, hnode]; rfl
    obtain ⟨linked, hlink, h⟩ := bind_eq_ok.mp h
    rw [htags] at hlink h
    obtain ⟨hlist, rfl⟩ := link_eq_ok_iff.mp hlink
    obtain ⟨again, hagain, h⟩ := bind_eq_ok.mp h
    rw [nodeToChange_eq_ok_iff, getElem?_mapNodes, hnode] at hagain
    cases hagain
    rw [← hreplace hnode]
    exact ⟨⟨(Array.getElem?_eq_some_iff.mp hnode).1, hlist⟩, (Except.ok.inj h).symm⟩
  · rintro ⟨⟨hid, hlist⟩, rfl⟩
    have hnode : tree.nodes[id]? = some tree.nodes[id] := Array.getElem?_eq_getElem hid
    have htags : tree.nodes[id].tags = tree.tagsAt id := by rw [tagsAt, hnode]; rfl
    refine bind_eq_ok.mpr ⟨_, nodeToChange_eq_ok_iff.mpr hnode, ?_⟩
    rw [htags]
    refine bind_eq_ok.mpr ⟨_, link_eq_ok_iff.mpr ⟨hlist, rfl⟩, ?_⟩
    refine bind_eq_ok.mpr ⟨chained (tree.tagsAt id ++ tags) id tree.nodes[id], ?_, ?_⟩
    · rw [nodeToChange_eq_ok_iff, getElem?_mapNodes, hnode]
      rfl
    · rw [← hreplace hnode]
      rfl

theorem pushRoot_eq_ok_iff :
    tree.pushRoot id = .ok next ↔
      (∀ last ∈ tree.roots.getLast?, last < tree.size) ∧ next = tree.after (.pushRoot id) := by
  rw [after_of_change rfl, pushRoot, Step.chain]
  cases tree.roots.getLast? with
  | none =>
    have hid : tree.mapNodes (chained [id]) = tree := mapNodes_id
    change (Except.ok _ : Except Fault Tree) = .ok next ↔
      _ ∧ next = { tree.mapNodes (chained [id]) with roots := tree.roots ++ [id] }
    rw [hid]
    simp [eq_comm]
  | some last =>
    rw [bind_eq_ok]
    simp only [setNext_eq_ok_iff]
    constructor
    · rintro ⟨_, ⟨hlast, rfl⟩, h⟩
      exact ⟨by simpa using hlast, (Except.ok.inj h).symm⟩
    · rintro ⟨hlast, rfl⟩
      exact ⟨_, ⟨by simpa using hlast, rfl⟩, rfl⟩

theorem perform_eq_ok (h : tree.perform step = .ok (next, answer)) : next = tree.after step := by
  cases step with
  | identifier _ | numeric _ | string _ | char _ | unary _ _ | binary _ _ _ | declaration _ _ _
  | constant _ _ =>
    obtain ⟨id, h⟩ := added_eq_ok h
    obtain ⟨_, rfl, rfl⟩ := push_eq_ok_iff.mp h
    rw [after_of_constructor (fun _ _ => rfl) rfl]
    exact mapNodes_id.symm
  | struct _ _ | union _ _ | namedType _ _ _ | inlineType _ _ _ | tag _ _ | procedure _ _ _ =>
    obtain ⟨id, h⟩ := added_eq_ok h
    rw [after_of_constructor (fun _ _ => rfl) rfl]
    exact (pushOwner_eq_ok_iff.mp h).2.2.2
  | enumeration _ names | flags _ names =>
    obtain ⟨id, h⟩ := added_eq_ok h
    rw [pushNames_eq] at h
    split at h
    · rw [after_of_constructor (fun _ _ => rfl) rfl]
      exact (Prod.mk.inj (Except.ok.inj h)).1.symm
    · cases h
  | bindIdentifier _ _ => exact (bindIdentifier_eq_ok_iff.mp (changed_eq_ok h)).2
  | resolveType _ _ => exact (resolveType_eq_ok_iff.mp (changed_eq_ok h)).2
  | attachTags _ _ => exact (attachTags_eq_ok_iff.mp (changed_eq_ok h)).2
  | pushRoot _ => exact (pushRoot_eq_ok_iff.mp (changed_eq_ok h)).2

end Tree

end DeclTree
