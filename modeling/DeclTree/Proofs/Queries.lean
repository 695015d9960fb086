import DeclTree.Proofs.Build.Closed
import DeclTree.Proofs.Edges
import DeclTree.Queries

namespace DeclTree

theorem Node.exists_declaration {node : Node} (h : node.type = .declaration) :
    ∃ type initial, node.payload = .declaration type initial := by
  unfold Node.type at h
  cases hp : node.payload <;> simp_all [Payload.type]

theorem Node.exists_typeUsage {node : Node} (h : node.type = .typeUsage) :
    ∃ usage, node.payload = .typeUsage usage := by
  unfold Node.type at h
  cases hp : node.payload <;> simp_all [Payload.type]

namespace Tree

variable {tree : Tree} {id : NodeId}

theorem children_of_lt (hid : id < tree.size) : ∃ ids, tree.children id = .ok ids := by
  obtain ⟨node, hnode⟩ := exists_node hid
  exact exists_bind_eq_ok hnode ⟨node.payload.children, rfl⟩

theorem firstTag_of_lt {tags : List NodeId} (h : ∀ tag ∈ tags, tag < tree.size) (name : String) :
    ∃ found, tree.firstTag name tags = .ok found := by
  induction tags with
  | nil => exact ⟨none, rfl⟩
  | cons tag rest ih =>
    obtain ⟨node, hnode⟩ := exists_node (h tag List.mem_cons_self)
    refine exists_bind_eq_ok hnode ?_
    by_cases hword : node.text.any (Text.hasWord · name)
    · exact ⟨some tag, if_pos hword⟩
    · rw [if_neg hword]
      exact ih fun t ht => h t (List.mem_cons_of_mem tag ht)

theorem Closed.findTag (h : tree.Closed) (hid : id < tree.size) (name : String) :
    ∃ found, tree.findTag id name = .ok found := by
  obtain ⟨node, hnode⟩ := exists_node hid
  exact exists_bind_eq_ok hnode (firstTag_of_lt (h.tags_lt id node hnode) name)

theorem tagParameter_of_lt (hid : id < tree.size) (index : Nat) :
    ∃ parameter, tree.tagParameter id index = .ok parameter := by
  obtain ⟨node, hnode⟩ := exists_node hid
  have hparameters : ∃ ids, tree.tagParameters id = .ok ids := by
    refine exists_bind_eq_ok hnode ?_
    cases node.payload with
    | tag ids => exact ⟨ids, rfl⟩
    | _ => exact ⟨[], rfl⟩
  obtain ⟨ids, hids⟩ := hparameters
  exact exists_bind_eq_ok hids ⟨ids[index]?, rfl⟩

theorem Typed.typeUsageOf (h : tree.Typed) {node : Node} {type : NodeId}
    {initial : Option NodeId} (hnode : tree.node id = .ok node)
    (hp : node.payload = .declaration type initial) :
    ∃ usage, tree.typeUsageOf id = .ok (type, usage) := by
  obtain ⟨slot, hslot, htype⟩ := h id node type initial hnode hp
  obtain ⟨usage, husage⟩ := Node.exists_typeUsage htype
  exact ⟨usage, typeUsageOf_of_ok hnode hp hslot husage⟩

theorem Typed.typeUsageOf_of_hasType (h : tree.Typed) (htype : tree.HasType id .declaration) :
    ∃ slot, tree.typeUsageOf id = .ok slot := by
  obtain ⟨node, hnode, htype⟩ := htype
  obtain ⟨type, initial, hp⟩ := Node.exists_declaration htype
  obtain ⟨usage, husage⟩ := h.typeUsageOf hnode hp
  exact ⟨(type, usage), husage⟩

theorem Typed.declarationIsType (h : tree.Typed) (hid : id < tree.size) (signature : String) :
    ∃ answer, tree.declarationIsType id signature = .ok answer := by
  obtain ⟨node, hnode⟩ := exists_node hid
  refine exists_bind_eq_ok hnode ?_
  cases hp : node.payload with
  | declaration type initial =>
    obtain ⟨usage, husage⟩ := h.typeUsageOf hnode hp
    obtain ⟨slot, hslot, _⟩ := h id node type initial hnode hp
    exact exists_bind_eq_ok husage (exists_bind_eq_ok hslot ⟨_, rfl⟩)
  | _ => exact ⟨false, rfl⟩

end Tree

end DeclTree
