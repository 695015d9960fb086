import DeclTree.Device
import DeclTree.Rendering

namespace DeclTree

class Sink (σ : Type) where
  /-- Offer a text. The answer says whether all of it was kept. -/
  write : String → σ → Bool × σ
  /-- A bound on the bytes the sink can still keep, if there is one. -/
  room : σ → Option Nat

inductive Halt
  | fault (fault : Fault)
  | rejected
  | device (error : DeviceError)
  deriving DecidableEq

def Halt.message : Halt → String
  | fault f => f.message
  | rejected => "output sink rejected a write"
  | device error => "failed to write generated source: " ++ error.message

def Rendering.into {σ α : Type} [Sink σ] : Rendering α → σ → Except Halt α × σ
  | done value, out => (.ok value, out)
  | fault f, out => (.error (.fault f), out)
  | write text rest, out =>
    match Sink.write text out with
    | (true, out) => (rest ()).into out
    | (false, out) => (.error .rejected, out)

instance : Sink String where
  write text out := (true, out ++ text)
  room _ := none

/-- A text of at most `cap` bytes in UTF-8. A longer text may be held from the start, and then
nothing can be added. -/
structure Capped where
  cap : Nat
  held : String := ""
  deriving DecidableEq

namespace Capped

def push (c : Char) (out : Capped) : Bool × Capped :=
  if out.held.utf8ByteSize + c.utf8Size ≤ out.cap then
    (true, { out with held := out.held.push c })
  else (false, out)

def writeChars : List Char → Capped → Bool × Capped
  | [], out => (true, out)
  | c :: rest, out =>
    match out.push c with
    | (true, out) => out.writeChars rest
    | (false, out) => (false, out)

theorem writeChars_append (cs ds : List Char) (out : Capped) :
    out.writeChars (cs ++ ds) =
      match out.writeChars cs with
      | (true, out) => out.writeChars ds
      | (false, out) => (false, out) := by
  induction cs generalizing out with
  | nil => rfl
  | cons c cs ih =>
    simp only [List.cons_append, writeChars]
    split
    · exact ih _
    · rfl

instance : Sink Capped where
  write text := writeChars text.toList
  room out := some (out.cap - out.held.utf8ByteSize)

end Capped

end DeclTree
