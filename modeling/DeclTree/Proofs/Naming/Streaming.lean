import DeclTree.Proofs.FittingPrefix
import DeclTree.Proofs.Naming.Writing

namespace DeclTree

structure Watched (σ : Type) where
  out : σ
  offered : List String := []

namespace Watched

variable {σ α : Type} [Sink σ]

instance : Sink (Watched σ) where
  write text w :=
    let (kept, out) := Sink.write text w.out
    (kept, { out, offered := w.offered ++ [text] })
  room w := Sink.room w.out

theorem write_eq (text : String) (w : Watched σ) :
    Sink.write text w =
      ((Sink.write text w.out).1, ⟨(Sink.write text w.out).2, w.offered ++ [text]⟩) := rfl

theorem into_out (r : Rendering α) (w : Watched σ) :
    r.into w.out = ((r.into w).1, (r.into w).2.out) := by
  induction r generalizing w with
  | done | fault => rfl
  | write text rest ih =>
    rw [Rendering.into, Rendering.into, write_eq]
    rcases Sink.write text w.out with ⟨_ | _, out⟩
    · rfl
    · exact ih () ⟨out, w.offered ++ [text]⟩

end Watched

theorem Capped.write_singleton (c : Char) (out : Capped) :
    Sink.write (String.singleton c) out = out.push c := by
  rw [write_eq, String.toList_singleton, writeChars]
  rcases out.push c with ⟨_ | _, out⟩ <;> rfl

theorem Capped.fitting_room_eq_self_iff {cap : Nat} {held s : String} :
    fitting (cap - held.utf8ByteSize) s.toList = s.toList ↔
      s = "" ∨ (held ++ s).utf8ByteSize ≤ cap := by
  rw [fitting_eq_self_iff, byteSize_toList, String.utf8ByteSize_append,
    ← String.utf8ByteSize_eq_zero_iff]
  omega

namespace Convention

theorem toText_render (convention : Convention) (name : String) :
    (convention.render name).toText = .ok (convention.convert name) := by
  rw [render_eq, Rendering.toText_eq, outcome_streamed, written_streamed, convert_eq]
  rfl

theorem offered_streamed (cs : List Char) (w : Watched Capped) :
    ((streamed cs).into w).2.offered = w.offered ++
      (cs.take ((Capped.fitting (w.out.cap - w.out.held.utf8ByteSize) cs).length + 1)).map
        String.singleton := by
  induction cs generalizing w with
  | nil => simp [streamed, Rendering.into]
  | cons c cs ih =>
    have hc := c.utf8Size_pos
    rw [streamed_cons, Rendering.into, Watched.write_eq, Capped.write_singleton, Capped.push,
      Capped.fitting]
    by_cases hfit : w.out.held.utf8ByteSize + c.utf8Size ≤ w.out.cap
    · have hroom : c.utf8Size ≤ w.out.cap - w.out.held.utf8ByteSize := by omega
      simp only [if_pos hfit, if_pos hroom, ih]
      simp [String.utf8ByteSize_push, Nat.sub_sub]
    · have hroom : ¬ c.utf8Size ≤ w.out.cap - w.out.held.utf8ByteSize := by omega
      simp [if_neg hfit, if_neg hroom]

theorem render_into_capped (convention : Convention) (name held : String) (cap : Nat) :
    (convention.render name).toText = .ok (convention.convert name) ∧
    ∃ fit, LongestFit (cap - held.utf8ByteSize) (convention.convert name) fit ∧
      (convention.render name).into ({ cap, held } : Capped) =
        (if convention.convert name = "" ∨
            (held ++ convention.convert name).utf8ByteSize ≤ cap then .ok ()
          else .error .rejected,
          { cap, held := held ++ fit }) ∧
      (convention.render name).into ({ out := { cap, held } } : Watched Capped) =
        let (result, out) := (convention.render name).into ({ cap, held } : Capped)
        let offered := (convention.convert name).toList.take (fit.length + 1)
        (result, { out, offered := offered.map String.singleton }) := by
  have htext := toText_render convention name
  obtain ⟨hok, hwritten⟩ := Rendering.toText_eq_ok_iff.mp htext
  refine ⟨htext, _, Capped.longestFit_fitting (cap - held.utf8ByteSize) _, ?_, ?_⟩
  · rw [Rendering.into_capped, hok, hwritten, Capped.writeChars_eq]
    by_cases h : Capped.fitting (cap - held.utf8ByteSize) (convention.convert name).toList =
        (convention.convert name).toList
    · rw [decide_eq_true h, if_pos (Capped.fitting_room_eq_self_iff.mp h)]
      rfl
    · rw [decide_eq_false h, if_neg (mt Capped.fitting_room_eq_self_iff.mpr h)]
  · have hwatched :=
      Watched.into_out (convention.render name) ({ out := { cap, held } } : Watched Capped)
    have hoffered := offered_streamed (convention.apply name.toList) { out := { cap, held } }
    rw [List.nil_append, ← render_eq] at hoffered
    rw [hwatched, String.length_ofList, toList_convert]
    exact Prod.ext rfl (congrArg (Watched.mk _) hoffered)

example : (lowerSnake.render "éA").into ({ cap := 4, held := "aé" } : Capped) =
    (.error .rejected, { cap := 4, held := "aé" }) := rfl

end Convention

end DeclTree
