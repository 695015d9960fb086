import DeclTree.Fault

namespace DeclTree

structure Tree where
  nodes : Array Node := #[]
  roots : List NodeId := []
  deriving DecidableEq

namespace Tree

def size (tree : Tree) : Nat := tree.nodes.size

def isEmpty (tree : Tree) : Bool := tree.nodes.isEmpty

def get? (tree : Tree) (id : NodeId) : Option Node := tree.nodes[id]?

def node (tree : Tree) (id : NodeId) : Except Fault Node :=
  match tree.get? id with
  | some node => .ok node
  | none => .error (.foreignNode id)

def firstRoot (tree : Tree) : Option NodeId := tree.roots.head?

/-- At most `limit` nodes of the sibling chain that starts at `id`. A node is listed only after
its own successor is known, so a missing node faults exactly when it would be listed. -/
def siblings (tree : Tree) : (limit : Nat) → NodeId → Except Fault (List NodeId)
  | 0, _ => .ok []
  | limit + 1, id => do
    match (← tree.node id).next with
    | none => return [id]
    | some next => return id :: (← siblings tree limit next)

def children (tree : Tree) (id : NodeId) : Except Fault (List NodeId) := do
  return (← tree.node id).payload.children

def declarationOf (tree : Tree) (id : NodeId) : Except Fault (Option NodeId) := do
  match (← tree.node id).payload with
  | .identifier declaration => return declaration
  | _ => return none

def typeUsage? (tree : Tree) (id : NodeId) : Except Fault (Option TypeUsage) := do
  match (← tree.node id).payload with
  | .typeUsage usage => return some usage
  | _ => return none

def typeUsageOf (tree : Tree) (id : NodeId) : Except Fault (NodeId × TypeUsage) := do
  let node ← tree.node id
  match node.payload with
  | .declaration type _ =>
    let slot ← tree.node type
    match slot.payload with
    | .typeUsage usage => return (type, usage)
    | _ => throw (.typeSlot id slot.type)
  | _ => throw (.notDeclaration id node.type)

theorem node_eq_ok_iff {tree : Tree} {id : NodeId} {node : Node} :
    tree.node id = .ok node ↔ tree.nodes[id]? = some node := by
  unfold Tree.node get?
  cases tree.nodes[id]? <;> simp

theorem mem_nodes {tree : Tree} {id : NodeId} {node : Node} (h : tree.node id = .ok node) :
    node ∈ tree.nodes :=
  Array.mem_of_getElem? (node_eq_ok_iff.mp h)

theorem node_eq_error_iff {tree : Tree} {id : NodeId} {fault : Fault} :
    tree.node id = .error fault ↔ tree.size ≤ id ∧ fault = .foreignNode id := by
  unfold Tree.node get? size
  by_cases h : tree.nodes.size ≤ id
  · simp [h, eq_comm]
  · simp [h, Nat.not_le.mp h]

end Tree

end DeclTree
