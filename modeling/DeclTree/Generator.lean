import DeclTree.Tree

namespace DeclTree

structure SourceFile where
  name : String
  tree : Tree
  deriving DecidableEq

class Generator (γ : Type) where
  onInit : γ → γ := id
  onParse : SourceFile → γ → Except Fault γ := fun _ g => .ok g
  onCleanup : γ → γ := id

inductive Hook
  | init
  | parse (file : SourceFile)
  | cleanup
  deriving DecidableEq

def Generator.handle {γ : Type} [Generator γ] (hook : Hook) (g : γ) : Except Fault γ :=
  match hook with
  | .init => .ok (onInit g)
  | .parse file => onParse file g
  | .cleanup => .ok (onCleanup g)

instance {α β : Type} [Generator α] [Generator β] : Generator (α ⊕ β) where
  onInit := Sum.map Generator.onInit Generator.onInit
  onParse file
    | .inl a => (Generator.onParse file a).map .inl
    | .inr b => (Generator.onParse file b).map .inr
  onCleanup := Sum.map Generator.onCleanup Generator.onCleanup

structure Silent where
  deriving DecidableEq

instance : Generator Silent where

structure Retainer where
  trees : List Tree := []
  deriving DecidableEq

instance : Generator Retainer where
  onParse file g := .ok { g with trees := g.trees ++ [file.tree] }

def Retainer.rootNames (g : Retainer) : Except Fault (List (Option String)) :=
  g.trees.mapM fun tree =>
    match tree.firstRoot with
    | some root => do return some (← tree.node root).name
    | none => return none

structure Recorder where
  name : String
  deriving DecidableEq

instance : Generator Recorder where

def Recorder.line (g : Recorder) : Hook → String
  | .init => g.name ++ " init"
  | .parse file =>
    let root := file.tree.firstRoot.elim "none" toString
    g.name ++ " parse " ++ file.name ++ " root=" ++ root ++ " nodes=" ++ toString file.tree.size
  | .cleanup => g.name ++ " cleanup"

end DeclTree
