import DeclTree.Proofs.Outcome
import DeclTree.Sink

namespace DeclTree

structure LongestFit (cap : Nat) (whole held : String) : Prop where
  initial : held.toList <+: whole.toList
  fits : held.utf8ByteSize ≤ cap
  longest : ∀ other : String, other.toList <+: whole.toList → other.utf8ByteSize ≤ cap →
    other.toList <+: held.toList

namespace Capped

def byteSize (cs : List Char) : Nat := (String.ofList cs).utf8ByteSize

@[simp] theorem byteSize_cons (c : Char) (cs : List Char) :
    byteSize (c :: cs) = c.utf8Size + byteSize cs := by
  rw [byteSize, String.ofList_cons, String.utf8ByteSize_append, String.utf8ByteSize_singleton]
  rfl

theorem byteSize_toList (s : String) : byteSize s.toList = s.utf8ByteSize := by
  rw [byteSize, String.ofList_toList]

def fitting (room : Nat) : List Char → List Char
  | [] => []
  | c :: cs => if c.utf8Size ≤ room then c :: fitting (room - c.utf8Size) cs else []

theorem fitting_isPrefix (room : Nat) (cs : List Char) : fitting room cs <+: cs := by
  induction cs generalizing room with
  | nil => exact List.prefix_rfl
  | cons c cs ih =>
    rw [fitting]
    split
    · exact (List.prefix_cons_inj c).mpr (ih _)
    · exact List.nil_prefix

theorem byteSize_fitting_le (room : Nat) (cs : List Char) : byteSize (fitting room cs) ≤ room := by
  induction cs generalizing room with
  | nil => exact Nat.zero_le _
  | cons c cs ih =>
    rw [fitting]
    split
    · have := ih (room - c.utf8Size)
      simp only [byteSize_cons]
      omega
    · exact Nat.zero_le _

theorem isPrefix_fitting {room : Nat} {ds cs : List Char} (h : ds <+: cs)
    (hd : byteSize ds ≤ room) : ds <+: fitting room cs := by
  induction cs generalizing room ds with
  | nil => exact h
  | cons c cs ih =>
    cases ds with
    | nil => exact List.nil_prefix
    | cons d ds =>
      obtain ⟨rfl, hds⟩ := List.cons_prefix_cons.mp h
      rw [byteSize_cons] at hd
      rw [fitting, if_pos (by omega)]
      exact (List.prefix_cons_inj d).mpr (ih hds (by omega))

theorem fitting_of_byteSize_le {room : Nat} {cs : List Char} (h : byteSize cs ≤ room) :
    fitting room cs = cs :=
  ((fitting_isPrefix room cs).eq_of_length_le (isPrefix_fitting List.prefix_rfl h).length_le)

theorem fitting_eq_self_iff {room : Nat} {cs : List Char} :
    fitting room cs = cs ↔ byteSize cs ≤ room := by
  constructor
  · intro h
    rw [← h]
    exact byteSize_fitting_le room cs
  · exact fitting_of_byteSize_le

theorem writeChars_eq (cs : List Char) (out : Capped) :
    out.writeChars cs =
      (decide (fitting (out.cap - out.held.utf8ByteSize) cs = cs),
        { out with held :=
            out.held ++ String.ofList (fitting (out.cap - out.held.utf8ByteSize) cs) }) := by
  induction cs generalizing out with
  | nil => simp [writeChars, fitting]
  | cons c cs ih =>
    have hc := c.utf8Size_pos
    by_cases hfit : out.held.utf8ByteSize + c.utf8Size ≤ out.cap
    · have hroom : c.utf8Size ≤ out.cap - out.held.utf8ByteSize := by omega
      have hrest : out.cap - (out.held.utf8ByteSize + c.utf8Size) =
          out.cap - out.held.utf8ByteSize - c.utf8Size := by omega
      have hheld (t : List Char) :
          out.held.push c ++ String.ofList t = out.held ++ String.ofList (c :: t) := by
        apply String.toList_inj.mp
        simp
      simp only [writeChars, push, if_pos hfit, ih, String.utf8ByteSize_push, hrest, hheld,
        fitting, if_pos hroom, List.cons.injEq, true_and]
    · have hroom : ¬ c.utf8Size ≤ out.cap - out.held.utf8ByteSize := by omega
      simp [writeChars, push, hfit, fitting, hroom]

theorem longestFit_fitting (cap : Nat) (whole : String) :
    LongestFit cap whole (String.ofList (fitting cap whole.toList)) where
  initial := by simpa using fitting_isPrefix cap whole.toList
  fits := byteSize_fitting_le cap whole.toList
  longest other h hfits := by
    simpa using isPrefix_fitting h (by rwa [byteSize_toList])

theorem write_eq (text : String) (out : Capped) : Sink.write text out = out.writeChars text.toList :=
  rfl

theorem splits : Sink.Splits fun _ : Capped => True where
  empty _ := rfl
  kept _ _ := trivial
  append _ ha b := by
    rw [write_eq] at ha
    rw [write_eq, String.toList_append, writeChars_append, ha]
    rfl
  stop _ ha b := by
    rw [write_eq] at ha
    rw [write_eq, String.toList_append, writeChars_append, ha]

end Capped

theorem isPrefix_of_fits {cap : Nat} {a b held : String} (h : held.toList <+: (a ++ b).toList)
    (hfits : held.utf8ByteSize ≤ cap) (ha : cap < a.utf8ByteSize) : held.toList <+: a.toList := by
  have hab : a.toList <+: (a ++ b).toList := by simp
  rcases List.prefix_or_prefix_of_prefix h hab with hp | ⟨t, ht⟩
  · exact hp
  · have he : held = a ++ String.ofList t := by
      apply String.toList_inj.mp
      simp [ht]
    rw [he, String.utf8ByteSize_append] at hfits
    omega

theorem longestFit_append_iff {cap : Nat} {a b held : String} (ha : cap < a.utf8ByteSize) :
    LongestFit cap (a ++ b) held ↔ LongestFit cap a held := by
  have hab : a.toList <+: (a ++ b).toList := by simp
  constructor
  · intro h
    exact ⟨isPrefix_of_fits h.initial h.fits ha, h.fits,
      fun other ho hfits => h.longest other (ho.trans hab) hfits⟩
  · intro h
    exact ⟨h.initial.trans hab, h.fits,
      fun other ho hfits => h.longest other (isPrefix_of_fits ho hfits ha) hfits⟩

namespace Rendering

variable {α : Type}

theorem into_capped (r : Rendering α) (out : Capped) :
    r.into out = match out.writeChars r.written.toList with
      | (true, out) => (r.outcome.mapError .fault, out)
      | (false, out) => (.error .rejected, out) := by
  rw [into_eq_write Capped.splits r trivial, Capped.write_eq]
  rcases out.writeChars r.written.toList with ⟨_ | _, out⟩ <;> rfl

theorem into_capped_of_le {r : Rendering α} {cap : Nat} (h : r.written.utf8ByteSize ≤ cap) :
    r.into ({ cap } : Capped) = (r.outcome.mapError .fault, { cap, held := r.written }) := by
  have hfit : Capped.fitting cap r.written.toList = r.written.toList :=
    Capped.fitting_of_byteSize_le (by rwa [Capped.byteSize_toList])
  simp [into_capped, Capped.writeChars_eq, hfit]

theorem into_capped_of_lt {r : Rendering α} {cap : Nat} (h : cap < r.written.utf8ByteSize) :
    ∃ held, LongestFit cap r.written held ∧
      r.into ({ cap } : Capped) = (.error .rejected, { cap, held }) := by
  refine ⟨_, Capped.longestFit_fitting cap r.written, ?_⟩
  have hcut : Capped.fitting cap r.written.toList ≠ r.written.toList := by
    rw [Ne, Capped.fitting_eq_self_iff, Capped.byteSize_toList]
    omega
  simp [into_capped, Capped.writeChars_eq, hcut]

theorem of_into_capped_eq_fault {r : Rendering α} {cap : Nat} {f : Fault}
    (h : (r.into ({ cap } : Capped)).1 = .error (.fault f)) :
    r.written.utf8ByteSize ≤ cap ∧ r.outcome = .error f := by
  rcases Nat.lt_or_ge cap r.written.utf8ByteSize with hlt | hle
  · obtain ⟨held, _, he⟩ := into_capped_of_lt hlt
    rw [he] at h
    cases h
  · rw [into_capped_of_le hle] at h
    cases ho : r.outcome with
    | ok value =>
      rw [ho] at h
      cases h
    | error g =>
      rw [ho] at h
      cases h
      exact ⟨hle, rfl⟩

end Rendering

end DeclTree
