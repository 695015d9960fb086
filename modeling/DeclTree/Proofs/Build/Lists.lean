import DeclTree.Proofs.Build.Runs

namespace DeclTree

inductive Slot
  | roots
  | payload (id : NodeId)
  | tags (id : NodeId)
  deriving DecidableEq

def Payload.list : Payload → List NodeId
  | .struct list | .union list | .enumeration list | .flags list | .tag list
  | .procedure _ list => list
  | .typeUsage usage => usage.arraySizes
  | _ => []

@[simp] theorem Payload.list_refer (payload : Payload) (target : NodeId) :
    (payload.refer target).list = payload.list := by
  cases payload <;> rfl

def Tree.list (tree : Tree) : Slot → List NodeId
  | .roots => tree.roots
  | .payload id => (tree.nodes[id]?.map fun node => node.payload.list).getD []
  | .tags id => tree.tagsAt id

namespace Step

variable {step : Step} {id : NodeId} {node : Node}

def slot (size : Nat) : Step → Option Slot
  | .struct .. | .union .. | .namedType .. | .inlineType .. | .tag .. | .procedure .. =>
    some (.payload size)
  | .enumeration _ names | .flags _ names => some (.payload (size + names.length))
  | .attachTags id _ => some (.tags id)
  | .pushRoot _ => some .roots
  | _ => none

def growth (size : Nat) (slot : Slot) (step : Step) : List NodeId :=
  if step.slot size = some slot then step.listed size else []

def attached (id : NodeId) : Step → List NodeId
  | .attachTags i tags => if i = id then tags else []
  | _ => []

def listedAlong (size : Nat) : List Step → List NodeId
  | [] => []
  | step :: rest =>
    step.listed size ++ listedAlong (size + (step.created size).length) rest

/-- What the steps of a run put into a slot, from a tree of `size` nodes on. No two of them put
anything into the same payload. -/
def growthAlong (slot : Slot) (size : Nat) : List Step → List NodeId
  | [] => []
  | step :: rest =>
    step.growth size slot ++ growthAlong slot (size + (step.created size).length) rest

theorem list_touched : (step.touched id node).payload.list = node.payload.list := by
  cases step <;> simp only [touched] <;> split <;> simp

theorem tags_touched : (step.touched id node).tags = node.tags ++ step.attached id := by
  cases step with
  | bindIdentifier i target | resolveType i target =>
    simp only [touched, attached, List.append_nil]
    split <;> rfl
  | attachTags i tags =>
    by_cases hi : id = i
    · simp [touched, attached, hi]
    · simp [touched, attached, hi, Ne.symm hi]
  | _ => exact (List.append_nil _).symm

theorem growth_roots (size : Nat) : step.growth size .roots = step.rooted := by
  cases step <;> rfl

theorem growth_tags (size : Nat) : step.growth size (.tags id) = step.attached id := by
  cases step <;> simp [growth, slot, listed, attached]

theorem growthAlong_roots (size : Nat) (steps : List Step) :
    growthAlong .roots size steps = steps.flatMap rooted := by
  induction steps generalizing size with
  | nil => rfl
  | cons step rest ih => rw [growthAlong, growth_roots, ih, List.flatMap_cons]

theorem growthAlong_tags (size : Nat) (steps : List Step) :
    growthAlong (.tags id) size steps = steps.flatMap (attached id) := by
  induction steps generalizing size with
  | nil => rfl
  | cons step rest ih => rw [growthAlong, growth_tags, ih, List.flatMap_cons]

theorem growth_payload_of_lt {size : Nat} (h : id < size) :
    step.growth size (.payload id) = [] := by
  refine if_neg fun hslot => ?_
  cases step with
  | enumeration name names | flags name names =>
    cases hslot
    exact absurd h (Nat.not_lt.mpr (Nat.le_add_right size names.length))
  | struct | union | namedType | inlineType | tag | procedure =>
    cases hslot
    exact Nat.lt_irrefl _ h
  | _ => cases hslot

theorem growth_payload_add (size i : Nat) :
    step.growth size (.payload (size + i)) =
      ((step.created size)[i]?.map fun node => node.payload.list).getD [] := by
  cases step with
  | enumeration name names | flags name names =>
    rw [created, List.getElem?_append, List.length_map]
    rcases Nat.lt_trichotomy i names.length with hi | rfl | hi
    · have hname : names[i]? = some names[i] := List.getElem?_eq_getElem hi
      rw [if_pos hi, List.getElem?_map, hname]
      simp [growth, slot, Nat.ne_of_gt hi, Payload.list]
    · simp [growth, slot, listed, Payload.list]
    · have hnone (owner : Node) : [owner][i - names.length]? = none := by
        apply List.getElem?_eq_none
        rw [List.length_singleton]
        omega
      rw [if_neg (Nat.not_lt.mpr (Nat.le_of_lt hi)), hnone]
      simp [growth, slot, Nat.ne_of_lt hi]
  | bindIdentifier | resolveType | attachTags | pushRoot => simp [growth, slot, created]
  | _ => cases i <;> simp [growth, slot, created, listed, Payload.list]

end Step

namespace Tree

variable {tree final : Tree} {step : Step} {steps : List Step} {slot : Slot}

theorem tagsAt_of_size_le {id : NodeId} (h : tree.size ≤ id) : tree.tagsAt id = [] := by
  rw [tagsAt, Array.getElem?_eq_none h]
  rfl

theorem tagsAt_after (hp : tree.Passes step) (id : NodeId) :
    (tree.after step).tagsAt id = tree.tagsAt id ++ step.attached id := by
  rcases Nat.lt_or_ge id tree.size with hi | hi
  · obtain ⟨node, hnode⟩ := exists_node hi
    rw [tagsAt, tagsAt, node_eq_ok_iff.mp (node_after_of_ok hnode), node_eq_ok_iff.mp hnode]
    exact Step.tags_touched
  · have hattached : step.attached id = [] := by
      cases step with
      | attachTags i tags =>
        have hlt : i < tree.size := hp i List.mem_cons_self
        exact if_neg (Nat.ne_of_lt (Nat.lt_of_lt_of_le hlt hi))
      | _ => rfl
    rw [hattached, tagsAt_of_size_le hi, tagsAt, node_after]
    obtain ⟨i, rfl⟩ := Nat.exists_eq_add_of_le hi
    rw [getElem?_append_size]
    cases hnode : (step.created tree.size)[i]? with
    | none => rfl
    | some node =>
      have hfresh := Step.created_fresh (List.mem_of_getElem? hnode)
      have htags : (step.touched (tree.size + i) node).tags = [] := by
        rw [Step.tags_touched, hfresh.2, hattached]
        rfl
      exact htags

theorem list_after (hp : tree.Passes step) :
    (tree.after step).list slot = tree.list slot ++ step.growth tree.size slot := by
  cases slot with
  | roots => exact congrArg (tree.roots ++ ·) (Step.growth_roots _).symm
  | tags id => rw [Step.growth_tags]; exact tagsAt_after hp id
  | payload id =>
    have hafter : (tree.after step).list (.payload id) =
        ((tree.append (step.created tree.size)).nodes[id]?.map fun n => n.payload.list).getD [] := by
      rw [list, node_after, Option.map_map]
      congr 2
      funext node
      exact Step.list_touched
    rw [hafter]
    rcases Nat.lt_or_ge id tree.size with hi | hi
    · rw [getElem?_append_of_lt hi, Step.growth_payload_of_lt hi, List.append_nil]
      rfl
    · obtain ⟨i, rfl⟩ := Nat.exists_eq_add_of_le hi
      rw [getElem?_append_size, Step.growth_payload_add]
      rw [list, Array.getElem?_eq_none hi]
      rfl

end Tree

end DeclTree
