import Mathlib.Data.List.Basic
import Mathlib.Tactic.SplitIfs
import DeclTree.Proofs.Collections
import DeclTree.Proofs.Letters
import DeclTree.Text

namespace DeclTree.Text

open Letters

def Apart (s t : List Char) : Prop := ¬ (s.getLast?.any wordChar ∧ t.head?.any wordChar)

instance (s t : List Char) : Decidable (Apart s t) :=
  inferInstanceAs (Decidable (¬ (s.getLast?.any wordChar ∧ t.head?.any wordChar)))

variable {hay needle : List Char} {a b r s : List UInt8} {c d : Char}

theorem encode_append_inj (h : String.utf8EncodeChar c ++ r = String.utf8EncodeChar d ++ s) :
    c = d ∧ r = s := by
  have hbytes := congrArg (fun l => l.toByteArray.utf8DecodeChar? 0) h
  simp only [List.toByteArray_append, ByteArray.utf8DecodeChar?_utf8EncodeChar_append,
    Option.some.injEq] at hbytes
  subst hbytes
  exact ⟨rfl, List.append_cancel_left h⟩

theorem exists_append_of_encode
    (h : hay.flatMap String.utf8EncodeChar = needle.flatMap String.utf8EncodeChar ++ b) :
    ∃ q, hay = needle ++ q ∧ b = q.flatMap String.utf8EncodeChar := by
  induction needle generalizing hay with
  | nil => exact ⟨hay, rfl, h.symm⟩
  | cons c needle ih =>
    rw [List.flatMap_cons, List.append_assoc] at h
    cases hay with
    | nil => exact absurd (List.append_eq_nil_iff.mp h.symm).1 String.utf8EncodeChar_ne_nil
    | cons d hay =>
      obtain ⟨rfl, hrest⟩ := encode_append_inj h
      obtain ⟨q, rfl, hb⟩ := ih hrest
      exact ⟨q, rfl, hb⟩

theorem isUTF8FirstByte_of_encode {x : UInt8} (h : String.utf8EncodeChar c = x :: r) :
    x.IsUTF8FirstByte := by
  have hlt : 0 < (String.utf8EncodeChar c).length := by simp [h]
  have hx : x = (String.utf8EncodeChar c)[0] := by simp [h]
  rw [hx, UInt8.isUTF8FirstByte_getElem_utf8EncodeChar]

theorem not_isUTF8FirstByte_of_encode {x : UInt8} (h : String.utf8EncodeChar c = a ++ x :: r)
    (ha : a ≠ []) : ¬ x.IsUTF8FirstByte := by
  have hlt : a.length < (String.utf8EncodeChar c).length := by simp [h]
  have hx : x = (String.utf8EncodeChar c)[a.length] := by simp [h]
  rw [hx, UInt8.isUTF8FirstByte_getElem_utf8EncodeChar]
  simpa using ha

/-- The bytes of a text are found only where its characters are. -/
theorem exists_split_of_encode (hneedle : needle ≠ [])
    (h : hay.flatMap String.utf8EncodeChar = a ++ (needle.flatMap String.utf8EncodeChar ++ b)) :
    ∃ p q, hay = p ++ (needle ++ q) ∧ a = p.flatMap String.utf8EncodeChar ∧
      b = q.flatMap String.utf8EncodeChar := by
  obtain ⟨n, needle, rfl⟩ := List.exists_cons_of_ne_nil hneedle
  induction hay generalizing a with
  | nil => simp at h
  | cons c hay ih =>
    by_cases ha : a = []
    · obtain ⟨q, hq, hb⟩ := exists_append_of_encode (h.trans (by rw [ha, List.nil_append]))
      exact ⟨[], q, hq, ha, hb⟩
    · rw [List.flatMap_cons] at h
      obtain ⟨a', rfl, hrest⟩ | ⟨inside, hc, hrest⟩ := List.append_eq_append_iff.mp h
      · obtain ⟨p, q, rfl, rfl, rfl⟩ := ih hrest
        exact ⟨c :: p, q, rfl, rfl, rfl⟩
      · -- the needle can only start at the end of `c`, as its first byte is none from within `c`
        cases inside with
        | nil =>
          obtain ⟨q, rfl, hb⟩ := exists_append_of_encode hrest.symm
          exact ⟨[c], q, rfl, by simpa using hc.symm, hb⟩
        | cons x inside =>
          obtain ⟨y, r, hn⟩ := List.exists_cons_of_ne_nil (String.utf8EncodeChar_ne_nil (c := n))
          rw [List.flatMap_cons, hn] at hrest
          obtain rfl := (List.cons.inj hrest).1
          exact absurd (isUTF8FirstByte_of_encode hn) (not_isUTF8FirstByte_of_encode hc ha)

theorem lt_of_wordChar (h : wordChar c) : c.toNat < 128 := by
  rw [wordChar, Bool.or_eq_true, decide_eq_true_iff] at h
  rcases h with h | rfl
  · rw [isAlphanum_iff, isUpper_iff, isLower_iff, isDigit_iff] at h
    omega
  · decide

theorem encode_of_lt (h : c.toNat < 128) : String.utf8EncodeChar c = [c.val.toUInt8] := by
  refine String.utf8EncodeChar_eq_singleton ?_
  rw [Char.utf8Size_eq_one_iff, UInt32.le_iff_toNat_le]
  exact Nat.le_of_lt_succ h

theorem ofUInt8_toUInt8 (h : c.toNat < 128) : Char.ofUInt8 c.val.toUInt8 = c := by
  apply Char.ext
  apply UInt32.toNat_inj.mp
  have hval : c.toNat = c.val.toNat := rfl
  change c.val.toUInt8.toUInt32.toNat = c.val.toNat
  rw [UInt8.toNat_toUInt32, UInt32.toNat_toUInt8]
  omega

theorem le_of_mem_encode (h : 128 ≤ c.toNat) : ∀ x ∈ String.utf8EncodeChar c, 128 ≤ x.toNat := by
  have hmax : c.val.toNat < 0x110000 := c.valid.elim (by omega) (by omega)
  have hval : c.toNat = c.val.toNat := rfl
  unfold String.utf8EncodeChar
  dsimp only
  split_ifs <;> simp
  all_goals omega

theorem wordByte_of_mem_encode {x : UInt8} (hx : x ∈ String.utf8EncodeChar c) :
    wordByte x = wordChar c := by
  change wordChar (Char.ofUInt8 x) = wordChar c
  by_cases hc : c.toNat < 128
  · rw [encode_of_lt hc, List.mem_singleton] at hx
    rw [hx, ofUInt8_toUInt8 hc]
  · have hle := le_of_mem_encode (Nat.le_of_not_lt hc) x hx
    have hbyte : ¬ wordChar (Char.ofUInt8 x) := fun h => Nat.not_lt.mpr hle (lt_of_wordChar h)
    have hchar : ¬ wordChar c := fun h => hc (lt_of_wordChar h)
    rw [Bool.eq_false_iff.mpr hbyte, Bool.eq_false_iff.mpr hchar]

theorem any_wordByte_head? (cs : List Char) :
    (cs.flatMap String.utf8EncodeChar).head?.any wordByte = cs.head?.any wordChar := by
  cases cs with
  | nil => rfl
  | cons c cs =>
    obtain ⟨x, r, hc⟩ := List.exists_cons_of_ne_nil (String.utf8EncodeChar_ne_nil (c := c))
    simp [hc, ← wordByte_of_mem_encode (c := c) (x := x) (by simp [hc])]

theorem any_wordByte_getLast? (cs : List Char) :
    (cs.flatMap String.utf8EncodeChar).getLast?.any wordByte = cs.getLast?.any wordChar := by
  obtain rfl | ⟨cs, c, rfl⟩ := List.eq_nil_or_concat' cs
  · rfl
  · obtain ⟨r, x, hc⟩ :=
      (List.eq_nil_or_concat' (String.utf8EncodeChar c)).resolve_left String.utf8EncodeChar_ne_nil
    simp [hc, ← wordByte_of_mem_encode (c := c) (x := x) (by simp [hc])]

theorem wordBreak_eq (before after : Option UInt8) :
    wordBreak before after = !(before.any wordByte && after.any wordByte) := by
  cases before <;> cases after <;> simp [wordBreak]

theorem wordBreak_encode_iff (cs ds : List Char) :
    wordBreak (cs.flatMap String.utf8EncodeChar).getLast? (ds.flatMap String.utf8EncodeChar).head? ↔
      Apart cs ds := by
  rw [wordBreak_eq, any_wordByte_getLast?, any_wordByte_head?, Bool.not_eq_true', Apart,
    ← Bool.and_eq_true, Bool.not_eq_true]

theorem occurs_iff {hay needle : List UInt8} (hneedle : needle ≠ []) (before : Option UInt8) :
    occurs needle before hay = true ↔ ∃ a b, hay = a ++ (needle ++ b) ∧
      wordBreak (a.getLast?.or before) needle.head? = true ∧
      wordBreak needle.getLast? b.head? = true := by
  induction hay generalizing before with
  | nil => simp [occurs, hneedle]
  | cons x rest ih =>
    rw [occurs, Bool.or_eq_true, ih]
    simp only [Bool.and_eq_true, List.isPrefixOf_iff_prefix]
    constructor
    · rintro (⟨⟨⟨b, hb⟩, hopen⟩, hclose⟩ | ⟨a, b, rfl, hopen, hclose⟩)
      · rw [← hb, List.drop_left] at hclose
        exact ⟨[], b, hb.symm, hopen, hclose⟩
      · rw [← getLast?_cons_or] at hopen
        exact ⟨x :: a, b, rfl, hopen, hclose⟩
    · rintro ⟨a, b, hab, hopen, hclose⟩
      cases a with
      | nil =>
        refine .inl ⟨⟨⟨b, hab.symm⟩, hopen⟩, ?_⟩
        rwa [hab, List.nil_append, List.drop_left]
      | cons y a =>
        obtain ⟨rfl, rfl⟩ := List.cons.inj hab
        rw [getLast?_cons_or] at hopen
        exact .inr ⟨a, b, rfl, hopen, hclose⟩

theorem occurs_encode_iff (hneedle : needle ≠ []) :
    occurs (needle.flatMap String.utf8EncodeChar) none (hay.flatMap String.utf8EncodeChar) ↔
      ∃ p q, hay = p ++ (needle ++ q) ∧ Apart p needle ∧ Apart needle q := by
  have hbytes : needle.flatMap String.utf8EncodeChar ≠ [] := by
    simpa using List.exists_mem_of_ne_nil needle hneedle
  rw [occurs_iff hbytes]
  constructor
  · rintro ⟨a, b, hab, hopen, hclose⟩
    obtain ⟨p, q, rfl, rfl, rfl⟩ := exists_split_of_encode hneedle hab
    rw [Option.or_none] at hopen
    exact ⟨p, q, rfl, (wordBreak_encode_iff p needle).mp hopen,
      (wordBreak_encode_iff needle q).mp hclose⟩
  · rintro ⟨p, q, rfl, hopen, hclose⟩
    refine ⟨p.flatMap String.utf8EncodeChar, q.flatMap String.utf8EncodeChar, by simp, ?_, ?_⟩
    · rw [Option.or_none]
      exact (wordBreak_encode_iff p needle).mpr hopen
    · exact (wordBreak_encode_iff needle q).mpr hclose

theorem hasWord_iff {hay needle : String} :
    hasWord hay needle ↔ needle ≠ "" ∧ ∃ p q, hay.toList = p ++ (needle.toList ++ q) ∧
      Apart p needle.toList ∧ Apart needle.toList q := by
  by_cases hneedle : needle = ""
  · simp [hasWord, hneedle]
  · have hsome : (!needle.isEmpty) = true := by simpa using hneedle
    have hne : needle.toList ≠ [] := by simpa using hneedle
    rw [hasWord, hsome, Bool.true_and, utf8, utf8, occurs_encode_iff hne]
    simp [hneedle]

theorem hasWord_characters (hay needle : String) :
    (hasWord hay needle = true ↔ needle ≠ "" ∧ ∃ p q : String, hay = p ++ needle ++ q ∧
      Apart p.toList needle.toList ∧ Apart needle.toList q.toList) ∧
    (needle ≠ "" → ∀ a b, utf8 hay = a ++ utf8 needle ++ b → ∃ p q : String,
      hay = p ++ needle ++ q ∧ a = utf8 p ∧ b = utf8 q) := by
  -- a text and its characters are one
  have hsplit (p q : List Char) : hay.toList = p ++ (needle.toList ++ q) ↔
      hay = String.ofList p ++ needle ++ String.ofList q := by
    simp [← String.toList_inj]
  constructor
  · rw [hasWord_iff]
    refine and_congr_right fun _ => ⟨?_, ?_⟩
    · rintro ⟨p, q, hpq, hopen, hclose⟩
      exact ⟨.ofList p, .ofList q, (hsplit p q).mp hpq, by simpa using hopen, by simpa using hclose⟩
    · rintro ⟨p, q, rfl, hopen, hclose⟩
      exact ⟨p.toList, q.toList, by simp, hopen, hclose⟩
  · intro hneedle a b hab
    rw [List.append_assoc] at hab
    have hne : needle.toList ≠ [] := by simpa using hneedle
    obtain ⟨p, q, hpq, rfl, rfl⟩ := exists_split_of_encode hne hab
    exact ⟨.ofList p, .ofList q, (hsplit p q).mp hpq, by simp [utf8], by simp [utf8]⟩

theorem hasWord_characters_later :
    hasWord "foofoo éfoo" "foo" = true ∧
    ∃ p q : String, "foofoo éfoo" = p ++ "foo" ++ q ∧ utf8 "foofoo é" = utf8 p ∧ [] = utf8 q := by
  obtain ⟨hfound, hbytes⟩ := hasWord_characters "foofoo éfoo" "foo"
  exact ⟨hfound.mpr ⟨by decide, "foofoo é", "", rfl, by decide, by decide⟩,
    hbytes (by decide) _ _ rfl⟩

end DeclTree.Text
