import Mathlib.Algebra.GroupWithZero.Nat
import DeclTree.Proofs.Build.Runs

namespace DeclTree

@[simp] theorem Payload.children_refer (payload : Payload) (target : NodeId) :
    (payload.refer target).children = payload.children := by
  cases payload <;> rfl

@[simp] theorem Payload.type_refer (payload : Payload) (target : NodeId) :
    (payload.refer target).type = payload.type := by
  cases payload <;> rfl

namespace Step

variable {step : Step} {id size : Nat} {node : Node}

theorem children_touched : (step.touched id node).payload.children = node.payload.children := by
  cases step <;> simp only [touched] <;> split <;> simp

theorem type_touched : (step.touched id node).type = node.type := by
  cases step <;> simp only [touched] <;> split <;> simp [Node.type]

theorem payload_of_touched {type : NodeId} {initial : Option NodeId}
    (h : (step.touched id node).payload = .declaration type initial) :
    node.payload = .declaration type initial := by
  have hrefer (target : NodeId) (h : node.payload.refer target = .declaration type initial) :
      node.payload = .declaration type initial := by
    cases hp : node.payload <;> simp_all [Payload.refer]
  cases step with
  | bindIdentifier i target | resolveType i target =>
    simp only [touched] at h
    split at h
    · exact hrefer target h
    · exact h
  | attachTags i tags =>
    simp only [touched] at h
    split at h <;> exact h
  | _ => exact h

theorem mem_tags_touched {tag : NodeId} (h : tag ∈ (step.touched id node).tags) :
    tag ∈ node.tags ∨ tag ∈ step.passed := by
  cases step with
  | attachTags i tags =>
    simp only [touched] at h
    split at h
    · rcases List.mem_append.mp h with h | h
      · exact .inl h
      · exact .inr (List.mem_cons_of_mem i h)
    · exact .inl h
  | bindIdentifier i target | resolveType i target =>
    simp only [touched] at h
    split at h <;> exact .inl h
  | _ => exact .inl h

end Step

namespace Tree

structure Closed (tree : Tree) : Prop where
  children_lt : ∀ id node, tree.node id = .ok node → ∀ c ∈ node.payload.children, c < id
  next_lt : ∀ id node, tree.node id = .ok node → ∀ c ∈ node.next, c < tree.size
  tags_lt : ∀ id node, tree.node id = .ok node → ∀ c ∈ node.tags, c < tree.size
  roots_lt : ∀ id ∈ tree.roots, id < tree.size

def HasType (tree : Tree) (id : NodeId) (type : NodeType) : Prop :=
  ∃ node, tree.node id = .ok node ∧ node.type = type

def Typed (tree : Tree) : Prop :=
  ∀ id node type initial, tree.node id = .ok node → node.payload = .declaration type initial →
    tree.HasType type .typeUsage

instance (tree : Tree) (id : NodeId) (type : NodeType) : Decidable (tree.HasType id type) :=
  decidable_of_iff (tree.nodes[id]?.map Node.type = some type) (by simp [HasType, node_eq_ok_iff])

/-- A step that a front-end may take: the nodes it passes exist and have the types it needs. -/
def Fits (tree : Tree) (step : Step) : Prop :=
  tree.Passes step ∧
    match step with
    | .declaration _ type _ => tree.HasType type .typeUsage
    | .bindIdentifier id _ => tree.HasType id .identifier
    | .resolveType id _ => tree.HasType id .typeUsage
    | _ => True

instance (tree : Tree) (step : Step) : Decidable (tree.Fits step) := by
  unfold Fits
  cases step <;> infer_instance

variable {tree final : Tree} {step : Step} {steps : List Step}

theorem HasType.after {id : NodeId} {type : NodeType} (h : tree.HasType id type) :
    (tree.after step).HasType id type := by
  obtain ⟨node, hnode, rfl⟩ := h
  exact ⟨_, node_after_of_ok hnode, Step.type_touched⟩

theorem children_created {size i : Nat} {node : Node}
    (h : (step.created size)[i]? = some node) :
    ∀ c ∈ node.payload.children, c ∈ step.passed ∨ size ≤ c ∧ c < size + i := by
  intro c hc
  have hmem := List.mem_of_getElem? h
  cases step with
  | enumeration name names | flags name names =>
    rw [Step.created, List.getElem?_append] at h
    split at h
    · rw [List.getElem?_map, Option.map_eq_some_iff] at h
      obtain ⟨_, _, rfl⟩ := h
      cases hc
    · rename_i hi
      rw [List.getElem?_singleton, Option.ite_none_right_eq_some] at h
      obtain ⟨_, h⟩ := h
      cases h
      rw [List.length_map] at hi
      obtain ⟨hsize, hlast⟩ := List.mem_range'_1.mp hc
      exact .inr ⟨hsize, Nat.lt_of_lt_of_le hlast (Nat.add_le_add_left (Nat.not_lt.mp hi) size)⟩
  | bindIdentifier | resolveType | attachTags | pushRoot => cases hmem
  | _ =>
    obtain rfl := List.mem_singleton.mp hmem
    simp_all [Step.passed, Payload.children, or_comm]

theorem Closed.tagsAt_lt (h : tree.Closed) {id c : NodeId} (hc : c ∈ tree.tagsAt id) :
    c < tree.size := by
  unfold tagsAt at hc
  cases hnode : tree.nodes[id]? with
  | none =>
    rw [hnode] at hc
    cases hc
  | some node =>
    rw [hnode] at hc
    exact h.tags_lt id node (node_eq_ok_iff.mpr hnode) c hc

theorem Closed.chain_lt (h : tree.Closed) (hp : tree.Passes step) {c : NodeId}
    (hc : c ∈ step.chain tree) : c < (tree.after step).size := by
  rw [size_after]
  have hlisted (hl : c ∈ step.listed tree.size) :
      c < tree.size + (step.created tree.size).length := by
    rcases Step.mem_listed hl with hl | hl
    · exact Nat.lt_add_right _ (hp c hl)
    · exact hl.2
  cases step with
  | attachTags id tags =>
    rcases List.mem_append.mp hc with hc | hc
    · exact Nat.lt_add_right _ (h.tagsAt_lt hc)
    · exact hlisted hc
  | pushRoot id =>
    rcases List.mem_append.mp hc with hc | hc
    · have hroot := List.mem_of_getLast? (Option.mem_toList.mp hc)
      exact Nat.lt_add_right _ (h.roots_lt c hroot)
    · exact hlisted hc
  | _ => exact hlisted hc

theorem mem_follow {list : List NodeId} {id c : NodeId} {old : Option NodeId}
    (h : c ∈ follow list id old) : c ∈ list ∨ c ∈ old := by
  induction list generalizing old with
  | nil => exact .inr h
  | cons a rest ih =>
    cases rest with
    | nil => exact .inr h
    | cons b rest =>
      rcases ih h with hc | hc
      · exact .inl (List.mem_cons_of_mem a hc)
      · split at hc
        · cases hc
          exact .inl (by simp)
        · exact .inr hc

theorem size_le_after : tree.size ≤ (tree.after step).size := by
  rw [size_after]
  exact Nat.le_add_right _ _

theorem Closed.after (h : tree.Closed) (hp : tree.Passes step) : (tree.after step).Closed where
  children_lt id node hnode c hc := by
    obtain ⟨old, rfl, hold | ⟨i, rfl, hold⟩⟩ := node_after_eq_ok hnode
    · exact h.children_lt id old hold c (by rwa [← Step.children_touched])
    · have hc : c ∈ old.payload.children := by rwa [← Step.children_touched]
      rcases children_created hold c hc with hc | hc
      · exact Nat.lt_add_right i (hp c hc)
      · exact hc.2
  next_lt id node hnode c hc := by
    obtain ⟨old, rfl, hold⟩ := node_after_eq_ok hnode
    rcases mem_follow hc with hchain | hnext
    · exact h.chain_lt hp hchain
    · rw [Step.next_touched] at hnext
      rcases hold with hold | ⟨i, rfl, hold⟩
      · exact Nat.lt_of_lt_of_le (h.next_lt id old hold c hnext) size_le_after
      · rw [(Step.created_fresh (List.mem_of_getElem? hold)).1] at hnext
        cases hnext
  tags_lt id node hnode c hc := by
    obtain ⟨old, rfl, hold⟩ := node_after_eq_ok hnode
    refine Nat.lt_of_lt_of_le ?_ size_le_after
    rcases Step.mem_tags_touched hc with htag | hpassed
    · rcases hold with hold | ⟨i, rfl, hold⟩
      · exact h.tags_lt id old hold c htag
      · rw [(Step.created_fresh (List.mem_of_getElem? hold)).2] at htag
        cases htag
    · exact hp c hpassed
  roots_lt id hid := by
    refine Nat.lt_of_lt_of_le ?_ size_le_after
    rcases List.mem_append.mp hid with hid | hid
    · exact h.roots_lt id hid
    · cases step with
      | pushRoot root => exact hp id hid
      | _ => cases hid

theorem Typed.after (h : tree.Typed) (hf : tree.Fits step) : (tree.after step).Typed := by
  intro id node type initial hnode hpayload
  obtain ⟨old, rfl, hold⟩ := node_after_eq_ok hnode
  have hpayload : old.payload = .declaration type initial := Step.payload_of_touched hpayload
  apply HasType.after
  rcases hold with hold | ⟨i, rfl, hold⟩
  · exact h id old type initial hold hpayload
  · have hmem := List.mem_of_getElem? hold
    cases step with
    | declaration name t value =>
      obtain rfl := List.mem_singleton.mp hmem
      cases hpayload
      exact hf.2
    | enumeration name names | flags name names =>
      rcases List.mem_append.mp hmem with hmem | hmem
      · obtain ⟨_, _, rfl⟩ := List.mem_map.mp hmem
        cases hpayload
      · obtain rfl := List.mem_singleton.mp hmem
        cases hpayload
    | bindIdentifier | resolveType | attachTags | pushRoot => cases hmem
    | _ =>
      obtain rfl := List.mem_singleton.mp hmem
      cases hpayload

theorem perform_of_fits (h : tree.Closed) (hf : tree.Fits step) :
    ∃ answer, tree.perform step =
      if tree.HasRoom step.count then .ok (tree.after step, answer) else .error .tooManyNodes := by
  obtain ⟨hp, hkind⟩ := hf
  -- which tree it is follows once the step is known not to fault
  suffices hok : ∃ r, tree.perform step =
      if tree.HasRoom step.count then .ok r else .error .tooManyNodes by
    obtain ⟨⟨next, answer⟩, hr⟩ := hok
    refine ⟨answer, ?_⟩
    split
    case isTrue hroom =>
      rw [if_pos hroom] at hr
      obtain rfl := perform_eq_ok hr
      exact hr
    case isFalse hroom => exact hr.trans (if_neg hroom)
  have hadded {count : Nat} {result : Except Fault (Tree × NodeId)} {r : Tree × NodeId}
      (hresult : result = if tree.HasRoom count then .ok r else .error .tooManyNodes) :
      ∃ r, added result = if tree.HasRoom count then .ok r else .error .tooManyNodes := by
    refine ⟨(r.1, some r.2), ?_⟩
    rw [hresult]
    split <;> rfl
  have hchanged {result : Except Fault Tree} {next : Tree} (hresult : result = .ok next) :
      ∃ r, changed result = if tree.HasRoom 0 then .ok r else .error .tooManyNodes := by
    refine ⟨(next, none), ?_⟩
    rw [hresult, if_pos (.inl rfl)]
    rfl
  cases step with
  | identifier | numeric | string | char | unary | binary | declaration | constant =>
    exact hadded (push_eq _ _)
  | struct _ list | union _ list | namedType _ _ list | tag _ list => exact hadded (pushOwner_eq hp)
  | inlineType _ _ list => exact hadded (pushOwner_eq fun c hc => hp c (List.mem_cons_of_mem _ hc))
  | procedure _ _ list =>
    exact hadded (pushOwner_eq fun c hc => hp c (List.mem_append_right _ hc))
  | enumeration _ names | flags _ names => exact hadded pushNames_eq
  | bindIdentifier id target =>
    obtain ⟨node, hnode, htype⟩ := hkind
    exact hchanged (bindIdentifier_eq_ok_iff.mpr ⟨⟨node, node_eq_ok_iff.mp hnode, htype⟩, rfl⟩)
  | resolveType id target =>
    obtain ⟨node, hnode, htype⟩ := hkind
    exact hchanged (resolveType_eq_ok_iff.mpr ⟨⟨node, node_eq_ok_iff.mp hnode, htype⟩, rfl⟩)
  | attachTags id tags =>
    refine hchanged (attachTags_eq_ok_iff.mpr ⟨⟨hp id List.mem_cons_self, fun c hc => ?_⟩, rfl⟩)
    rcases List.mem_append.mp (List.dropLast_subset _ hc) with hc | hc
    · exact h.tagsAt_lt hc
    · exact hp c (List.mem_cons_of_mem id hc)
  | pushRoot id =>
    exact hchanged (pushRoot_eq_ok_iff.mpr
      ⟨fun last hlast => h.roots_lt last (List.mem_of_getLast? hlast), rfl⟩)

theorem performAll_of_fits (hclosed : tree.Closed) (htyped : tree.Typed)
    (hsize : tree.size ≤ NodeId.max + 1) (h : tree.Along Fits steps) :
    if tree.size + (steps.map Step.count).sum ≤ NodeId.max + 1 then
      ∃ final, tree.performAll steps = .ok final ∧
        final.size = tree.size + (steps.map Step.count).sum ∧ final.Closed ∧ final.Typed
    else tree.performAll steps = .error .tooManyNodes := by
  induction steps generalizing tree with
  | nil =>
    rw [List.map_nil, List.sum_nil, Nat.add_zero, if_pos hsize]
    exact ⟨tree, rfl, rfl, hclosed, htyped⟩
  | cons step rest ih =>
    have hfits := h.head
    obtain ⟨answer, hstep⟩ := perform_of_fits hclosed hfits
    rw [List.map_cons, List.sum_cons, ← Nat.add_assoc, performAll, hstep]
    by_cases hroom : tree.HasRoom step.count
    · rw [if_pos hroom] at hstep ⊢
      have hafter : (tree.after step).size = tree.size + step.count := by
        rw [size_after, step.length_created]
      have hsize : tree.size + step.count ≤ NodeId.max + 1 := by
        rcases hroom with hroom | hroom
        · rwa [hroom]
        · exact hroom
      rw [← hafter] at hsize ⊢
      exact ih (hclosed.after hfits.1) (htyped.after hfits) hsize (h.tail hstep)
    · have hfull : NodeId.max + 1 < tree.size + step.count := by
        refine Nat.not_le.mp fun hle => ?_
        exact hroom (.inr hle)
      rw [if_neg hroom, if_neg (Nat.not_le.mpr (Nat.lt_add_right _ hfull))]
      rfl

theorem closed_empty : ({} : Tree).Closed where
  children_lt id node hnode := by cases hnode
  next_lt id node hnode := by cases hnode
  tags_lt id node hnode := by cases hnode
  roots_lt id hid := by cases hid

theorem typed_empty : ({} : Tree).Typed := by
  intro id node type initial hnode
  cases hnode

theorem build_of_fits (h : ({} : Tree).Along Fits steps) :
    if (steps.map Step.count).sum ≤ NodeId.max + 1 then
      ∃ tree, build steps = .ok tree ∧ tree.size = (steps.map Step.count).sum ∧
        tree.Closed ∧ tree.Typed
    else build steps = .error .tooManyNodes := by
  have hrun := performAll_of_fits closed_empty typed_empty (Nat.zero_le _) h
  rwa [show ({} : Tree).size = 0 from rfl, Nat.zero_add] at hrun

end Tree

end DeclTree
