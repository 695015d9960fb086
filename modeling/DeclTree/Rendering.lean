import DeclTree.Fault

namespace DeclTree

/-- A rendering in progress: it hands over one text at a time and goes on only when it is asked
to. A reader that stops early never reaches what would come later, be it a fault or endless. -/
inductive Rendering (α : Type)
  | done (value : α)
  | fault (fault : Fault)
  | write (text : String) (rest : Unit → Rendering α)

namespace Rendering

protected def bind {α β : Type} : Rendering α → (α → Rendering β) → Rendering β
  | done value, next => next value
  | fault f, _ => fault f
  | write text rest, next => write text fun _ => (rest ()).bind next

instance : Monad Rendering where
  pure := done
  bind := Rendering.bind

@[simp] theorem pure_eq {α : Type} (value : α) : (pure value : Rendering α) = done value := rfl

@[simp] theorem done_bind {α β : Type} (value : α) (next : α → Rendering β) :
    (done value >>= next) = next value := rfl

@[simp] theorem fault_bind {α β : Type} (f : Fault) (next : α → Rendering β) :
    (fault f >>= next) = fault f := rfl

@[simp] theorem write_bind {α β : Type} (text : String) (rest : Unit → Rendering α)
    (next : α → Rendering β) :
    (write text rest >>= next) = write text fun _ => rest () >>= next := rfl

theorem bind_done {α : Type} (r : Rendering α) : (r >>= done) = r := by
  induction r with
  | done value => rfl
  | fault f => rfl
  | write text rest ih => simp [ih]

theorem bind_assoc {α β γ : Type} (r : Rendering α) (f : α → Rendering β) (g : β → Rendering γ) :
    (r >>= f >>= g) = (r >>= fun value => f value >>= g) := by
  induction r with
  | done value => rfl
  | fault f => rfl
  | write text rest ih => simp [ih]

instance : LawfulMonad Rendering := LawfulMonad.mk' Rendering bind_done (fun _ _ => rfl) bind_assoc

def text (s : String) : Rendering Unit := write s fun _ => done ()

def char (c : Char) : Rendering Unit := text (String.singleton c)

def orFault {α : Type} : Except Fault α → Rendering α
  | .ok value => done value
  | .error f => fault f

def repeated (s : String) : Nat → Rendering Unit
  | 0 => done ()
  | n + 1 => do
    text s
    repeated s n

def separated {α : Type} (separator : String) (item : α → Rendering Unit) :
    List α → Rendering Unit
  | [] => done ()
  | [x] => item x
  | x :: y :: rest => do
    item x
    text separator
    separated separator item (y :: rest)

def collect {α : Type} (collected : String) : Rendering α → Except Fault String
  | done _ => .ok collected
  | fault f => .error f
  | write text rest => (rest ()).collect (collected ++ text)

def toText {α : Type} (r : Rendering α) : Except Fault String := r.collect ""

end Rendering

end DeclTree
