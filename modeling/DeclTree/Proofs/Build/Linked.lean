import DeclTree.Proofs.Build.Lists

namespace DeclTree.Tree

variable {tree final : Tree} {step : Step} {steps : List Step} {slot : Slot} {id : NodeId}

theorem follow_of_notMem_list {list : List NodeId} (h : id ∉ list) (old : Option NodeId) :
    follow list id old = old := by
  apply follow_of_notMem
  intro hmem
  exact h (List.dropLast_subset list hmem)

theorem follow_append (l m : List NodeId) (id : NodeId) (old : Option NodeId) :
    follow (l ++ m) id old = follow (l.getLast?.toList ++ m) id (follow l id old) := by
  induction l generalizing old with
  | nil => rfl
  | cons a rest ih =>
    cases rest with
    | nil => rfl
    | cons b rest => exact ih _

theorem follow_eq_of_mem {list : List NodeId} (h : id ∈ list.dropLast)
    (old old' : Option NodeId) : follow list id old = follow list id old' := by
  induction list generalizing old old' with
  | nil => cases h
  | cons a rest ih =>
    cases rest with
    | nil => cases h
    | cons b rest =>
      rw [List.dropLast_cons_cons, List.mem_cons] at h
      by_cases ha : id = a
      · simp only [follow, if_pos ha]
      · exact ih (h.resolve_left ha) _ _

theorem follow_follow_append (l m : List NodeId) (id : NodeId) :
    follow (l ++ m) id (follow l id none) = follow (l ++ m) id none := by
  by_cases h : id ∈ (l ++ m).dropLast
  · exact follow_eq_of_mem h _ _
  · have hl : id ∉ l.dropLast := by
      intro hl
      cases m with
      | nil => exact h (by simpa using hl)
      | cons x m =>
        rw [List.dropLast_append_of_ne_nil (by simp)] at h
        exact h (List.mem_append_left _ (List.dropLast_subset l hl))
    rw [follow_of_notMem hl]

theorem follow_of_nodup {front rest : List NodeId} (h : (front ++ id :: rest).Nodup) :
    follow (front ++ id :: rest) id none = rest.head? := by
  induction front with
  | nil =>
    have hid : id ∉ rest := (List.nodup_cons.mp h).1
    cases rest with
    | nil => rfl
    | cons b rest =>
      change follow (b :: rest) id (if id = id then some b else none) = some b
      rw [if_pos rfl, follow_of_notMem_list hid]
  | cons a front ih =>
    obtain ⟨ha, hfront⟩ := List.nodup_cons.mp h
    have hne : ¬ id = a := by
      rintro rfl
      exact ha (by simp)
    rw [← ih hfront]
    cases front with
    | nil => simp [follow, hne]
    | cons b front => simp [follow, hne]

/-- The lists of a tree share no node, and each node is followed by its successor in the list that
holds it. -/
structure Linked (tree : Tree) : Prop where
  nodup : ∀ slot, (tree.list slot).Nodup
  lt_size : ∀ slot, ∀ id ∈ tree.list slot, id < tree.size
  disjoint : ∀ id slot other, id ∈ tree.list slot → id ∈ tree.list other → slot = other
  next : ∀ id node slot, tree.node id = .ok node →
    (∀ other, id ∈ tree.list other → other = slot) → node.next = follow (tree.list slot) id none

theorem mem_list_after (hp : tree.Passes step) :
    id ∈ (tree.after step).list slot ↔
      id ∈ tree.list slot ∨ step.slot tree.size = some slot ∧ id ∈ step.listed tree.size := by
  rw [list_after hp, List.mem_append, Step.growth]
  split <;> simp_all

theorem listed_of_slot_eq_none {size : Nat} (h : step.slot size = none) : step.listed size = [] := by
  cases step <;> first | rfl | cases h

theorem follow_chain (hp : tree.Passes step) (hslot : step.slot tree.size = some slot) :
    follow (step.chain tree) id (follow (tree.list slot) id none) =
      follow ((tree.after step).list slot) id none := by
  rw [list_after hp, Step.growth, if_pos hslot]
  -- an owner is new, so that its list was empty; tags and roots are chained to what was there
  have howner (h : tree.list slot = []) : follow (step.listed tree.size) id
      (follow (tree.list slot) id none) = follow (tree.list slot ++ step.listed tree.size) id none := by
    rw [h]
    rfl
  cases step with
  | attachTags i tags =>
    cases hslot
    exact follow_follow_append _ _ _
  | pushRoot i =>
    cases hslot
    exact (follow_append _ _ _ _).symm
  | struct | union | enumeration | flags | namedType | inlineType | tag | procedure =>
    cases hslot
    apply howner
    simp [list, size]
  | _ => cases hslot

theorem exists_slot_of_mem_chain (hp : tree.Passes step) (h : id ∈ step.chain tree) :
    ∃ slot, step.slot tree.size = some slot ∧ id ∈ (tree.after step).list slot := by
  have hlisted (h : id ∈ step.listed tree.size) :
      ∃ slot, step.slot tree.size = some slot ∧ id ∈ (tree.after step).list slot := by
    cases hslot : step.slot tree.size with
    | none =>
      rw [listed_of_slot_eq_none hslot] at h
      cases h
    | some slot => exact ⟨slot, rfl, (mem_list_after hp).mpr (.inr ⟨hslot, h⟩)⟩
  cases step with
  | attachTags i tags =>
    rcases List.mem_append.mp h with h | h
    · exact ⟨.tags i, rfl, (mem_list_after hp).mpr (.inl h)⟩
    · exact hlisted h
  | pushRoot i =>
    rcases List.mem_append.mp h with h | h
    · have hroot := List.mem_of_getLast? (Option.mem_toList.mp h)
      exact ⟨.roots, rfl, (mem_list_after hp).mpr (.inl hroot)⟩
    · exact hlisted h
  | _ => exact hlisted h

theorem Linked.after (h : tree.Linked) (hp : tree.Passes step)
    (hnodup : (step.listed tree.size).Nodup)
    (hnew : ∀ id ∈ step.listed tree.size, ∀ slot, id ∉ tree.list slot) :
    (tree.after step).Linked where
  nodup slot := by
    rw [list_after hp, Step.growth]
    split
    · refine List.nodup_append.mpr ⟨h.nodup slot, hnodup, ?_⟩
      rintro id hid _ hlisted rfl
      exact hnew id hlisted slot hid
    · rw [List.append_nil]
      exact h.nodup slot
  lt_size slot id hid := by
    rw [size_after]
    rcases (mem_list_after hp).mp hid with hid | ⟨_, hid⟩
    · exact Nat.lt_add_right _ (h.lt_size slot id hid)
    · rcases Step.mem_listed hid with hid | hid
      · exact Nat.lt_add_right _ (hp id hid)
      · exact hid.2
  disjoint id slot other hid hother := by
    rcases (mem_list_after hp).mp hid with hid | ⟨hslot, hid⟩
    · rcases (mem_list_after hp).mp hother with hother | ⟨_, hother⟩
      · exact h.disjoint id slot other hid hother
      · exact absurd hid (hnew id hother slot)
    · rcases (mem_list_after hp).mp hother with hother | ⟨hslot', _⟩
      · exact absurd hother (hnew id hid other)
      · exact Option.some.inj (hslot.symm.trans hslot')
  next id node slot hnode honly := by
    obtain ⟨old, rfl, hold⟩ := node_after_eq_ok hnode
    have hnext : old.next = follow (tree.list slot) id none := by
      rcases hold with hold | ⟨i, rfl, hold⟩
      · apply h.next id old slot hold
        intro other hother
        exact honly other ((mem_list_after hp).mpr (.inl hother))
      · rw [(Step.created_fresh (List.mem_of_getElem? hold)).1]
        have hid : tree.size + i ∉ tree.list slot := by
          intro hid
          exact absurd (h.lt_size slot _ hid) (Nat.not_lt.mpr (Nat.le_add_right _ i))
        exact (follow_of_notMem_list hid none).symm
    change follow (step.chain tree) id (step.touched id old).next = _
    rw [Step.next_touched, hnext]
    by_cases hslot : step.slot tree.size = some slot
    · exact follow_chain hp hslot
    · have hchain : id ∉ step.chain tree := by
        intro hchain
        obtain ⟨other, hother, hid⟩ := exists_slot_of_mem_chain hp hchain
        exact hslot (honly other hid ▸ hother)
      rw [follow_of_notMem_list hchain, list_after hp, Step.growth, if_neg hslot, List.append_nil]

theorem linked_empty : ({} : Tree).Linked where
  nodup slot := by cases slot <;> exact List.nodup_nil
  lt_size slot id hid := by cases slot <;> cases hid
  disjoint id slot other hid _ := by cases slot <;> cases hid
  next id node slot hnode _ := by cases hnode

theorem Linked.performAll (h : tree.Linked) (hp : tree.Along Passes steps)
    (hnodup : (Step.listedAlong tree.size steps).Nodup)
    (hnew : ∀ id ∈ Step.listedAlong tree.size steps, ∀ slot, id ∉ tree.list slot)
    (hrun : tree.performAll steps = .ok final) : final.Linked := by
  induction steps generalizing tree with
  | nil =>
    cases hrun
    exact h
  | cons step rest ih =>
    obtain ⟨answer, hstep, hrun⟩ := performAll_cons_eq_ok hrun
    obtain ⟨hlisted, hrest, happart⟩ := List.nodup_append.mp hnodup
    rw [← size_after] at hrest happart
    refine ih ?_ (hp.tail hstep) hrest ?_ hrun
    · apply h.after hp.head hlisted
      intro id hid
      exact hnew id (List.mem_append_left _ hid)
    · intro id hid slot hmem
      rcases (mem_list_after hp.head).mp hmem with hmem | ⟨_, hmem⟩
      · rw [size_after] at hid
        exact hnew id (List.mem_append_right _ hid) slot hmem
      · exact happart id hmem id hid rfl

theorem list_performAll (hp : tree.Along Passes steps) (hrun : tree.performAll steps = .ok final)
    (slot : Slot) :
    final.list slot = tree.list slot ++ Step.growthAlong slot tree.size steps := by
  induction steps generalizing tree with
  | nil =>
    cases hrun
    exact (List.append_nil _).symm
  | cons step rest ih =>
    obtain ⟨answer, hstep, hrun⟩ := performAll_cons_eq_ok hrun
    rw [ih (hp.tail hstep) hrun, list_after hp.head, size_after, List.append_assoc]
    rfl

theorem list_build (hp : ({} : Tree).Along Passes steps) (hrun : build steps = .ok final)
    (slot : Slot) : final.list slot = Step.growthAlong slot 0 steps := by
  have hempty : ({} : Tree).list slot = [] := by cases slot <;> rfl
  rw [list_performAll hp hrun, hempty]
  rfl

end DeclTree.Tree
