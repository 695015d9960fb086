import DeclTree.Generator

namespace DeclTree

structure HostCall (γ : Type) where
  position : Nat
  generator : γ
  hook : Hook

structure Host (γ : Type) where
  generators : List γ := []

namespace Host

variable {γ : Type}

def register (host : Host γ) (g : γ) : Host γ := ⟨host.generators ++ [g]⟩

def ofList (generators : List γ) : Host γ := generators.foldl register {}

def size (host : Host γ) : Nat := host.generators.length

def isEmpty (host : Host γ) : Bool := host.generators.isEmpty

def callEach [Generator γ] (hook : Hook) : (position : Nat) → List γ →
    Except Fault (List γ × List (HostCall γ))
  | _, [] => .ok ([], [])
  | position, g :: rest => do
    let after ← Generator.handle hook g
    let (others, calls) ← callEach hook (position + 1) rest
    return (after :: others, ⟨position, g, hook⟩ :: calls)

def callAll [Generator γ] (generators : List γ) :
    List Hook → Except Fault (List γ × List (HostCall γ))
  | [] => .ok (generators, [])
  | hook :: hooks => do
    let (generators, calls) ← callEach hook 0 generators
    let (generators, later) ← callAll generators hooks
    return (generators, calls ++ later)

def run [Generator γ] (host : Host γ) (files : List SourceFile) :
    Except Fault (Host γ × List (HostCall γ)) := do
  let (generators, calls) ← callAll host.generators (.init :: files.map .parse ++ [.cleanup])
  return (⟨generators⟩, calls)

def runAll [Generator γ] (host : Host γ) :
    List (List SourceFile) → Except Fault (Host γ × List (HostCall γ))
  | [] => .ok (host, [])
  | files :: rest => do
    let (host, calls) ← host.run files
    let (host, later) ← host.runAll rest
    return (host, calls ++ later)

end Host

end DeclTree
