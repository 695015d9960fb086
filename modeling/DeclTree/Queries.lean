import DeclTree.Text
import DeclTree.Tree

namespace DeclTree

structure TypeSignature where
  pointerCount : Nat
  base : String
  deriving DecidableEq

namespace TypeSignature

def marker : Char := '*'

def parse (text : String) : TypeSignature :=
  let base := String.ofList (text.toList.dropWhile (· = marker))
  { pointerCount := text.utf8ByteSize - base.utf8ByteSize, base }

end TypeSignature

namespace Tree

def firstTag (tree : Tree) (name : String) : List NodeId → Except Fault (Option NodeId)
  | [] => .ok none
  | tag :: rest => do
    let node ← tree.node tag
    if node.text.any (Text.hasWord · name) then return some tag
    else tree.firstTag name rest

def findTag (tree : Tree) (id : NodeId) (name : String) : Except Fault (Option NodeId) := do
  tree.firstTag name (← tree.node id).tags

def hasTag (tree : Tree) (id : NodeId) (name : String) : Except Fault Bool := do
  return (← tree.findTag id name).isSome

def tagParameters (tree : Tree) (id : NodeId) : Except Fault (List NodeId) := do
  match (← tree.node id).payload with
  | .tag parameters => return parameters
  | _ => return []

def tagParameter (tree : Tree) (id : NodeId) (index : Nat) : Except Fault (Option NodeId) := do
  return (← tree.tagParameters id)[index]?

def declarationIsType (tree : Tree) (id : NodeId) (signature : String) :
    Except Fault Bool := do
  match (← tree.node id).payload with
  | .declaration .. =>
    let (type, usage) ← tree.typeUsageOf id
    let node ← tree.node type
    let wanted := TypeSignature.parse signature
    return usage.inlineAggregate.isNone && usage.pointerCount == wanted.pointerCount &&
      node.text == some wanted.base
  | _ => return false

end Tree

end DeclTree
