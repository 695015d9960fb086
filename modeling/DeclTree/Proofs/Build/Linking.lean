import Mathlib.Data.List.Basic
import DeclTree.Build

namespace DeclTree.Tree

def append (tree : Tree) (nodes : List Node) : Tree :=
  { tree with nodes := tree.nodes ++ nodes.toArray }

def mapNodes (f : NodeId → Node → Node) (tree : Tree) : Tree :=
  { tree with nodes := tree.nodes.mapIdx f }

variable {tree next : Tree} {id a b : NodeId} {node : Node} {f g : NodeId → Node → Node}

theorem ext_nodes {s t : Tree} (hroots : s.roots = t.roots)
    (hnodes : ∀ id : NodeId, s.nodes[id]? = t.nodes[id]?) : s = t := by
  obtain ⟨ns, rs⟩ := s
  obtain ⟨nt, rt⟩ := t
  obtain rfl : rs = rt := hroots
  obtain rfl : ns = nt := Array.ext_getElem? hnodes
  rfl

@[simp] theorem size_append (nodes : List Node) :
    (tree.append nodes).size = tree.size + nodes.length := by
  simp [append, size]

@[simp] theorem size_mapNodes : (tree.mapNodes f).size = tree.size := by
  simp [mapNodes, size]

theorem getElem?_append_of_lt {nodes : List Node} (h : id < tree.size) :
    (tree.append nodes).nodes[id]? = tree.nodes[id]? :=
  Array.getElem?_append_left h

theorem getElem?_append_size (tree : Tree) (nodes : List Node) (i : Nat) :
    (tree.append nodes).nodes[tree.size + i]? = nodes[i]? := by
  have hlt : ¬ tree.size + i < tree.nodes.size := Nat.not_lt.mpr (Nat.le_add_right _ i)
  change (tree.nodes ++ nodes.toArray)[tree.size + i]? = nodes[i]?
  rw [Array.getElem?_append, if_neg hlt]
  simp [size]

@[simp] theorem getElem?_mapNodes :
    (tree.mapNodes f).nodes[id]? = tree.nodes[id]?.map (f id) := by
  simp [mapNodes]

theorem node_mapNodes (f : NodeId → Node → Node) (id : NodeId) :
    (tree.mapNodes f).node id = (tree.node id).map (f id) := by
  unfold Tree.node get?
  rw [getElem?_mapNodes]
  cases tree.nodes[id]? <;> rfl

theorem append_append (nodes more : List Node) :
    (tree.append nodes).append more = tree.append (nodes ++ more) := by
  simp [append]

theorem mapNodes_mapNodes :
    (tree.mapNodes f).mapNodes g = tree.mapNodes fun id node => g id (f id node) := by
  refine ext_nodes rfl ?_
  intro id
  simp only [getElem?_mapNodes, Option.map_map]
  rfl

theorem mapNodes_congr (h : ∀ id node, tree.nodes[id]? = some node → f id node = g id node) :
    tree.mapNodes f = tree.mapNodes g := by
  refine ext_nodes rfl ?_
  intro id
  rw [getElem?_mapNodes, getElem?_mapNodes]
  cases hnode : tree.nodes[id]? with
  | none => rfl
  | some node => exact congrArg some (h id node hnode)

theorem mapNodes_id : (tree.mapNodes fun _ node => node) = tree := by
  refine ext_nodes rfl ?_
  intro id
  rw [getElem?_mapNodes, Option.map_id']

theorem nodeToChange_eq_ok_iff :
    tree.nodeToChange id = .ok node ↔ tree.nodes[id]? = some node := by
  unfold nodeToChange get?
  cases tree.nodes[id]? <;> simp

def HasRoom (tree : Tree) (count : Nat) : Prop := count = 0 ∨ tree.size + count ≤ NodeId.max + 1

instance (tree : Tree) (count : Nat) : Decidable (tree.HasRoom count) :=
  inferInstanceAs (Decidable (_ ∨ _))

theorem push_eq (payload : Payload) (text : Option String) :
    tree.push payload text =
      if tree.HasRoom 1 then .ok (tree.append [{ payload, text }], tree.size)
      else .error .tooManyNodes := by
  by_cases h : tree.size ≤ NodeId.max
  · have hroom : tree.HasRoom 1 := .inr (Nat.succ_le_succ h)
    have hid : NodeId.ofIndex tree.size = .ok tree.size := if_pos h
    rw [if_pos hroom, push, hid, append, ← Array.push_eq_append]
    rfl
  · have hroom : ¬ tree.HasRoom 1 := by
      rintro (h' | h')
      · cases h'
      · exact h (Nat.le_of_succ_le_succ h')
    have hid : NodeId.ofIndex tree.size = .error .tooManyNodes := if_neg h
    rw [if_neg hroom, push, hid]
    rfl

theorem push_eq_ok_iff {payload : Payload} {text : Option String} :
    tree.push payload text = .ok (next, id) ↔
      tree.HasRoom 1 ∧ next = tree.append [{ payload, text }] ∧ id = tree.size := by
  rw [push_eq]
  split <;> simp_all [eq_comm]

theorem hasRoom_mapNodes {count : Nat} : (tree.mapNodes f).HasRoom count ↔ tree.HasRoom count := by
  rw [HasRoom, size_mapNodes, HasRoom]

theorem hasRoom_length_add {nodes : List Node} {more : Nat} :
    tree.HasRoom (nodes.length + more) ↔
      tree.HasRoom nodes.length ∧ (tree.append nodes).HasRoom more := by
  simp only [HasRoom, size_append]
  omega

theorem replace_eq_mapNodes (h : tree.nodes[id]? = some node) :
    tree.replace id (f id node) = tree.mapNodes fun i n => if i = id then f i n else n := by
  refine ext_nodes rfl ?_
  intro i
  rw [getElem?_mapNodes]
  change (tree.nodes.setIfInBounds id (f id node))[i]? = _
  by_cases hi : i = id
  · subst hi
    rw [Array.getElem?_setIfInBounds_self_of_lt (Array.getElem?_eq_some_iff.mp h).1, h]
    simp
  · rw [Array.getElem?_setIfInBounds_ne (Ne.symm hi)]
    simp [hi]

/-- The successor of `id` once a list is chained: the last link from `id` counts, and a node that is
not linked on keeps the successor it has. -/
def follow : List NodeId → NodeId → Option NodeId → Option NodeId
  | a :: b :: rest, id, old => follow (b :: rest) id (if id = a then some b else old)
  | _, _, old => old

def chained (list : List NodeId) (id : NodeId) (node : Node) : Node :=
  { node with next := follow list id node.next }

theorem follow_of_notMem {list : List NodeId} (h : id ∉ list.dropLast) (old : Option NodeId) :
    follow list id old = old := by
  induction list generalizing old with
  | nil => rfl
  | cons a rest ih =>
    cases rest with
    | nil => rfl
    | cons b rest =>
      rw [List.dropLast_cons_cons, List.mem_cons, not_or] at h
      rw [follow, if_neg h.1]
      exact ih h.2 old

theorem chained_of_notMem {list : List NodeId} (h : id ∉ list.dropLast) (node : Node) :
    chained list id node = node := by
  rw [chained, follow_of_notMem h]

theorem setNext_eq_ok_iff :
    tree.setNext a b = .ok next ↔
      a < tree.size ∧ next = tree.mapNodes (chained [a, b]) := by
  have hchain : (fun i n => if i = a then { n with next := some b } else n : NodeId → Node → Node) =
      chained [a, b] := by
    funext i n
    by_cases hi : i = a <;> simp [chained, follow, hi]
  constructor
  · intro h
    obtain ⟨node, hnode, h⟩ := bind_eq_ok.mp h
    rw [nodeToChange_eq_ok_iff] at hnode
    refine ⟨(Array.getElem?_eq_some_iff.mp hnode).1, ?_⟩
    rw [← hchain, ← replace_eq_mapNodes (f := fun _ n => { n with next := some b }) hnode]
    exact (Except.ok.inj h).symm
  · rintro ⟨hlt, rfl⟩
    have hnode : tree.nodes[a]? = some tree.nodes[a] := Array.getElem?_eq_getElem hlt
    apply bind_eq_ok.mpr
    refine ⟨_, nodeToChange_eq_ok_iff.mpr hnode, ?_⟩
    rw [← hchain, ← replace_eq_mapNodes (f := fun _ n => { n with next := some b }) hnode]
    rfl

theorem link_eq_ok_iff {list : List NodeId} :
    tree.link list = .ok next ↔
      (∀ id ∈ list.dropLast, id < tree.size) ∧ next = tree.mapNodes (chained list) := by
  induction list generalizing tree with
  | nil =>
    have hid : tree.mapNodes (chained []) = tree := mapNodes_id
    simp [link, hid, eq_comm]
  | cons a rest ih =>
    cases rest with
    | nil =>
      have hid : tree.mapNodes (chained [a]) = tree := mapNodes_id
      simp [link, hid, eq_comm]
    | cons b rest =>
      have hcompose (t : Tree) :
          (t.mapNodes (chained [a, b])).mapNodes (chained (b :: rest)) =
            t.mapNodes (chained (a :: b :: rest)) := by
        rw [mapNodes_mapNodes]
        rfl
      rw [link, bind_eq_ok, List.dropLast_cons_cons]
      simp only [setNext_eq_ok_iff, ih, List.forall_mem_cons]
      constructor
      · rintro ⟨_, ⟨ha, rfl⟩, hrest, rfl⟩
        rw [size_mapNodes] at hrest
        exact ⟨⟨ha, hrest⟩, hcompose tree⟩
      · rintro ⟨⟨ha, hrest⟩, rfl⟩
        refine ⟨_, ⟨ha, rfl⟩, ?_, (hcompose tree).symm⟩
        rwa [size_mapNodes]

end DeclTree.Tree
