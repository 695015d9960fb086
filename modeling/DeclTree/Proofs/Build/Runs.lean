import DeclTree.Proofs.Build.Steps

namespace DeclTree

def Step.passed : Step → List NodeId
  | .identifier _ | .numeric _ | .string _ | .char _ | .enumeration _ _ | .flags _ _ => []
  | .unary _ operand => [operand]
  | .binary _ left right => [left, right]
  | .struct _ list | .union _ list | .namedType _ _ list | .tag _ list => list
  | .inlineType aggregate _ list => aggregate :: list
  | .declaration _ type initializer => type :: initializer.toList
  | .constant _ expression => [expression]
  | .procedure _ returnType list => returnType.toList ++ list
  | .bindIdentifier id target | .resolveType id target => [id, target]
  | .attachTags id tags => id :: tags
  | .pushRoot id => [id]

namespace Step

variable {step : Step} {id : NodeId} {node : Node}

theorem next_touched : (step.touched id node).next = node.next := by
  cases step <;> simp only [touched] <;> split <;> rfl

theorem created_fresh {size : Nat} {node : Node} (h : node ∈ step.created size) :
    node.next = none ∧ node.tags = [] := by
  cases step with
  | enumeration name names | flags name names =>
    rcases List.mem_append.mp h with h | h
    · obtain ⟨_, _, rfl⟩ := List.mem_map.mp h
      exact ⟨rfl, rfl⟩
    · obtain rfl := List.mem_singleton.mp h
      exact ⟨rfl, rfl⟩
  | bindIdentifier | resolveType | attachTags | pushRoot => cases h
  | _ =>
    obtain rfl := List.mem_singleton.mp h
    exact ⟨rfl, rfl⟩

theorem mem_listed {c size : Nat} (h : c ∈ step.listed size) :
    c ∈ step.passed ∨ size ≤ c ∧ c < size + (step.created size).length := by
  cases step with
  | enumeration name names | flags name names =>
    obtain ⟨hsize, hlast⟩ := List.mem_range'_1.mp h
    simp only [created, List.length_append, List.length_map, List.length_singleton]
    exact .inr ⟨hsize, by omega⟩
  | struct | union | namedType | tag | pushRoot => exact .inl h
  | inlineType | attachTags => exact .inl (List.mem_cons_of_mem _ h)
  | procedure => exact .inl (List.mem_append_right _ h)
  | _ => cases h

end Step

namespace Tree

def Passes (tree : Tree) (step : Step) : Prop := ∀ id ∈ step.passed, id < tree.size

instance (tree : Tree) (step : Step) : Decidable (tree.Passes step) :=
  inferInstanceAs (Decidable (∀ id ∈ step.passed, id < tree.size))

def Along (P : Tree → Step → Prop) (tree : Tree) : List Step → Prop
  | [] => True
  | step :: rest => P tree step ∧
    match tree.perform step with
    | .ok (next, _) => next.Along P rest
    | .error _ => True

instance Along.decidable (P : Tree → Step → Prop) [∀ tree step, Decidable (P tree step)]
    (tree : Tree) (steps : List Step) : Decidable (tree.Along P steps) :=
  match steps with
  | [] => .isTrue trivial
  | step :: rest =>
    have : Decidable (match tree.perform step with
        | .ok (next, _) => next.Along P rest
        | .error _ => True) :=
      match tree.perform step with
      | .ok (next, _) => Along.decidable P next rest
      | .error _ => .isTrue trivial
    inferInstanceAs (Decidable (_ ∧ _))

variable {tree next final : Tree} {P Q : Tree → Step → Prop} {step : Step} {rest : List Step}
  {answer : Option NodeId}

theorem Along.head (h : tree.Along P (step :: rest)) : P tree step := h.1

theorem Along.tail (h : tree.Along P (step :: rest))
    (hstep : tree.perform step = .ok (next, answer)) : next.Along P rest := by
  have htail := h.2
  rw [hstep] at htail
  exact htail

theorem performAll_cons_eq_ok (h : tree.performAll (step :: rest) = .ok final) :
    ∃ answer, tree.perform step = .ok (tree.after step, answer) ∧
      (tree.after step).performAll rest = .ok final := by
  obtain ⟨⟨next, answer⟩, hstep, h⟩ := bind_eq_ok.mp h
  obtain rfl := perform_eq_ok hstep
  exact ⟨answer, hstep, h⟩

theorem node_after (id : NodeId) :
    (tree.after step).nodes[id]? = (tree.append (step.created tree.size)).nodes[id]?.map
      fun node => chained (step.chain tree) id (step.touched id node) :=
  getElem?_mapNodes

theorem node_after_eq_ok {id : NodeId} {node : Node} (h : (tree.after step).node id = .ok node) :
    ∃ old, node = chained (step.chain tree) id (step.touched id old) ∧
      (tree.node id = .ok old ∨
        ∃ i, id = tree.size + i ∧ (step.created tree.size)[i]? = some old) := by
  rw [node_eq_ok_iff, node_after] at h
  obtain ⟨old, hold, rfl⟩ := Option.map_eq_some_iff.mp h
  refine ⟨old, rfl, ?_⟩
  rcases Nat.lt_or_ge id tree.size with hi | hi
  · rw [getElem?_append_of_lt hi] at hold
    exact .inl (node_eq_ok_iff.mpr hold)
  · obtain ⟨i, rfl⟩ := Nat.exists_eq_add_of_le hi
    rw [getElem?_append_size] at hold
    exact .inr ⟨i, rfl, hold⟩

theorem lt_size {id : NodeId} {node : Node} (h : tree.node id = .ok node) : id < tree.size :=
  (Array.getElem?_eq_some_iff.mp (node_eq_ok_iff.mp h)).1

theorem exists_node {id : NodeId} (h : id < tree.size) : ∃ node, tree.node id = .ok node :=
  ⟨tree.nodes[id], node_eq_ok_iff.mpr (Array.getElem?_eq_getElem h)⟩

theorem node_after_of_ok {id : NodeId} {old : Node} (h : tree.node id = .ok old) :
    (tree.after step).node id = .ok (chained (step.chain tree) id (step.touched id old)) := by
  rw [node_eq_ok_iff, node_after, getElem?_append_of_lt (lt_size h), node_eq_ok_iff.mp h]
  rfl

theorem size_after : (tree.after step).size = tree.size + (step.created tree.size).length := by
  change ((tree.append (step.created tree.size)).mapNodes _).size = _
  rw [size_mapNodes, size_append]

end Tree

end DeclTree
