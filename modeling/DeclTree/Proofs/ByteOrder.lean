import Mathlib.Data.List.Lex
import DeclTree.Text

namespace DeclTree.Text

def Precedes (u v : List UInt8) : Prop := ∀ r s, u ++ r < v ++ s

variable {u v : List UInt8} {a b : UInt8}

theorem not_nil_precedes : ¬ Precedes [] v :=
  fun h => List.lt_irrefl (v ++ []) (h (v ++ []) [])

theorem not_precedes_nil : ¬ Precedes u [] :=
  fun h => List.lt_irrefl (u ++ []) (h [] (u ++ []))

theorem precedes_cons : Precedes (a :: u) (b :: v) ↔ a < b ∨ a = b ∧ Precedes u v := by
  simp only [Precedes, List.cons_append, List.cons_lt_cons_iff]
  constructor
  · intro h
    rcases h [] [] with hab | ⟨hab, _⟩
    · exact .inl hab
    · refine .inr ⟨hab, fun r s => ?_⟩
      obtain hlt | ⟨_, hrest⟩ := h r s
      · exact absurd hlt (hab ▸ UInt8.lt_irrefl a)
      · exact hrest
  · rintro (hab | ⟨hab, h⟩) r s
    · exact .inl hab
    · exact .inr ⟨hab, h r s⟩

theorem encode_precedes {c d : Char} (h : c < d) :
    Precedes (String.utf8EncodeChar c) (String.utf8EncodeChar d) := by
  have hlt : c.val.toNat < d.val.toNat := h
  have hmax : d.val.toNat < 0x110000 := d.valid.elim (by omega) (by omega)
  -- one case for each pair of lengths, where the first byte tells the lengths apart
  unfold String.utf8EncodeChar
  generalize c.val.toNat = x at *
  generalize d.val.toNat = y at *
  dsimp only
  -- the bytes hold digits to base 64
  have hhigh (n : Nat) : n / 4096 = n / 64 / 64 := by omega
  have hhighest (n : Nat) : n / 262144 = n / 64 / 64 / 64 := by omega
  split_ifs <;>
    simp only [precedes_cons, not_nil_precedes, not_precedes_nil, UInt8.lt_iff_toNat_lt,
      ← UInt8.toNat_inj, UInt8.toNat_ofNat', and_false, or_false, hhigh, hhighest]
  all_goals omega

theorem utf8_lt_of_lt {s t : String} (h : s < t) : utf8 s < utf8 t := by
  rw [String.lt_iff] at h
  unfold utf8
  generalize s.toList = cs at *
  generalize t.toList = ds at *
  induction cs generalizing ds with
  | nil =>
    cases ds with
    | nil => cases h
    | cons d ds =>
      obtain ⟨b, bs, hbytes⟩ := List.exists_cons_of_ne_nil (String.utf8EncodeChar_ne_nil (c := d))
      rw [List.flatMap_nil, List.flatMap_cons, hbytes]
      exact List.nil_lt_cons _ _
  | cons c cs ih =>
    cases ds with
    | nil => cases h
    | cons d ds =>
      rw [List.flatMap_cons, List.flatMap_cons]
      rcases List.cons_lt_cons_iff.mp h with hcd | ⟨rfl, hrest⟩
      · exact encode_precedes hcd _ _
      · exact List.Lex.append_left _ (ih _ hrest) _

end DeclTree.Text
