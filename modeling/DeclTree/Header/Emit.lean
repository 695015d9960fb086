import Std.Data.TreeMap
import DeclTree.ByteSink
import DeclTree.Generator
import DeclTree.Header.Printer

namespace DeclTree.Header

open Rendering

def chainWithin (tree : Tree) (node : NodeId → Rendering Unit) : (fuel : Nat) → NodeId →
    Rendering Unit
  | 0, _ => .fault .endless
  | fuel + 1, id => do
    let next := (← orFault (tree.node id)).next
    node id
    match next with
    | some next => chainWithin tree node fuel next
    | none => done ()

def renderWithin (tree : Tree) (options : Options) (fuel : Nat) (id : NodeId) (follow : Bool) :
    Rendering Unit :=
  let node := fun id => nodeWithin tree options fuel id 0 0
  if follow then chainWithin tree node fuel id else node id

/-- A bound on the length of any path that a rendering into `room` bytes can take. A path without
a cycle passes each node at most twice, at the top level and below it, and may end at a missing
node. Each turn of a cycle writes a byte, or else the cycle is endless in any room. -/
def fuelFor (tree : Tree) (room : Option Nat) : Nat := (2 * tree.size + 2) * (room.getD 0 + 2)

def render (tree : Tree) (options : Options) (room : Option Nat) (id : NodeId) (follow : Bool) :
    Rendering Unit :=
  renderWithin tree options (fuelFor tree room) id follow

def emitText (tree : Tree) (options : Options) (id : NodeId) (follow : Bool) :
    Except Fault String :=
  (render tree options none id follow).toText

def emit {σ : Type} [Sink σ] (tree : Tree) (options : Options) (id : NodeId) (follow : Bool)
    (out : σ) : Except Halt Unit × σ :=
  (render tree options (Sink.room out) id follow).into out

def emitToDevice (tree : Tree) (options : Options) (id : NodeId) (follow : Bool)
    (device : Device) : Except Halt Unit × Device :=
  let (result, out) := emit tree options id follow ({ device } : ByteSink)
  match result, out.error with
  | .error .rejected, some error => (.error (.device error), out.device)
  | _, _ => (result, out.device)

def banner (options : Options) : Rendering Unit :=
  match options.banner with
  | some banner => text ("/* " ++ banner ++ " */\n\n")
  | none => done ()

def document (tree : Tree) (options : Options) : Rendering Unit := do
  banner options
  match tree.firstRoot with
  | some root => render tree options none root true
  | none => done ()

def compile (tree : Tree) (options : Options) : Except Fault String :=
  (document tree options).toText

structure HeaderGenerator where
  options : Options := {}
  headers : Std.TreeMap String String := ∅

namespace HeaderGenerator

instance : Generator HeaderGenerator where
  onInit g := { g with headers := ∅ }
  onParse file g := do
    let header ← compile file.tree g.options
    return { g with headers := g.headers.insert file.name header }

def output (g : HeaderGenerator) (name : String) : Option String := g.headers[name]?

def outputs (g : HeaderGenerator) : List (String × String) := g.headers.toList

end HeaderGenerator

end DeclTree.Header
