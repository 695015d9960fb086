import DeclTree.Sink

namespace DeclTree.Rendering

variable {α β : Type}

def outcome : Rendering α → Except Fault α
  | done value => .ok value
  | fault f => .error f
  | write _ rest => (rest ()).outcome

def written : Rendering α → String
  | done _ | fault _ => ""
  | write text rest => text ++ (rest ()).written

@[simp] theorem outcome_done (value : α) : (done value).outcome = .ok value := rfl

@[simp] theorem outcome_fault (f : Fault) : (fault f : Rendering α).outcome = .error f := rfl

@[simp] theorem written_done (value : α) : (done value).written = "" := rfl

@[simp] theorem written_fault (f : Fault) : (fault f : Rendering α).written = "" := rfl

@[simp] theorem outcome_text (s : String) : (text s).outcome = .ok () := rfl

@[simp] theorem written_text (s : String) : (text s).written = s := String.append_empty

theorem outcome_bind (r : Rendering α) (next : α → Rendering β) :
    (r >>= next).outcome = r.outcome >>= fun value => (next value).outcome := by
  induction r with
  | done value => rfl
  | fault f => rfl
  | write text rest ih => exact ih ()

theorem written_bind_of_ok {r : Rendering α} {value : α} (h : r.outcome = .ok value)
    (next : α → Rendering β) : (r >>= next).written = r.written ++ (next value).written := by
  induction r with
  | done v =>
    cases h
    exact String.empty_append.symm
  | fault f => cases h
  | write text rest ih =>
    change text ++ (rest () >>= next).written = text ++ (rest ()).written ++ _
    rw [ih () h, String.append_assoc]

theorem written_bind_of_error {r : Rendering α} {f : Fault} (h : r.outcome = .error f)
    (next : α → Rendering β) : (r >>= next).written = r.written := by
  induction r with
  | done v => cases h
  | fault f => rfl
  | write text rest ih =>
    change text ++ (rest () >>= next).written = text ++ (rest ()).written
    rw [ih () h]

theorem collect_eq (s : String) (r : Rendering α) :
    r.collect s = r.outcome.map fun _ => s ++ r.written := by
  induction r generalizing s with
  | done value => simp [collect, Except.map]
  | fault f => rfl
  | write text rest ih =>
    simp only [collect, ih, outcome, written, String.append_assoc]

theorem toText_eq (r : Rendering α) : r.toText = r.outcome.map fun _ => r.written := by
  simp [toText, collect_eq]

theorem toText_eq_ok_iff {r : Rendering Unit} {s : String} :
    r.toText = .ok s ↔ r.outcome = .ok () ∧ r.written = s := by
  rw [toText_eq]
  cases r.outcome <;> simp [Except.map]

theorem toText_eq_error_iff {r : Rendering α} {f : Fault} :
    r.toText = .error f ↔ r.outcome = .error f := by
  rw [toText_eq]
  cases r.outcome <;> simp [Except.map]

theorem toText_text (s : String) : (text s).toText = .ok s := by simp [toText_eq, Except.map]

theorem toText_bind (r : Rendering Unit) (next : Unit → Rendering α) :
    (r >>= next).toText = do
      let s ← r.toText
      let t ← (next ()).toText
      return s ++ t := by
  simp only [toText_eq, outcome_bind]
  cases h : r.outcome with
  | error f => rfl
  | ok value =>
    rw [written_bind_of_ok h]
    change ((next ()).outcome.map fun _ => r.written ++ (next ()).written) = _
    cases (next ()).outcome <;> rfl

theorem into_string (r : Rendering α) (s : String) :
    r.into s = (r.outcome.mapError .fault, s ++ r.written) := by
  induction r generalizing s with
  | done value => exact Prod.ext rfl String.append_empty.symm
  | fault f => exact Prod.ext rfl String.append_empty.symm
  | write text rest ih =>
    change (rest ()).into (s ++ text) = (_, s ++ (text ++ (rest ()).written))
    rw [ih, String.append_assoc]
    rfl

end DeclTree.Rendering

namespace DeclTree

/-- In the states of `I` a sink takes a text piece by piece as it takes it whole. -/
structure Sink.Splits {σ : Type} [Sink σ] (I : σ → Prop) : Prop where
  empty : ∀ {out : σ}, I out → Sink.write "" out = (true, out)
  kept : ∀ {out out' : σ} {a : String}, I out → Sink.write a out = (true, out') → I out'
  append : ∀ {out out' : σ} {a : String}, I out → Sink.write a out = (true, out') →
    ∀ b : String, Sink.write (a ++ b) out = Sink.write b out'
  stop : ∀ {out out' : σ} {a : String}, I out → Sink.write a out = (false, out') →
    ∀ b : String, Sink.write (a ++ b) out = (false, out')

theorem Rendering.into_eq_write {σ α : Type} [Sink σ] {I : σ → Prop} (h : Sink.Splits I)
    (r : Rendering α) {out : σ} (hout : I out) :
    r.into out =
      match Sink.write r.written out with
      | (true, out) => (r.outcome.mapError .fault, out)
      | (false, out) => (.error .rejected, out) := by
  induction r generalizing out with
  | done value =>
    rw [written_done, h.empty hout]
    rfl
  | fault f =>
    rw [written_fault, h.empty hout]
    rfl
  | write text rest ih =>
    have hw : (write text rest).written = text ++ (rest ()).written := rfl
    rw [hw, into]
    rcases htext : Sink.write text out with ⟨_ | _, out'⟩
    · rw [h.stop hout htext]
    · rw [h.append hout htext]
      exact ih () (h.kept hout htext)

end DeclTree
