import Mathlib.Tactic.Common
import DeclTree.Proofs.Letters
import DeclTree.Proofs.Naming.Writing

namespace DeclTree.Convention

open Letters

structure Camel (unlike : Char → Bool) (cs : List Char) : Prop where
  joined : '_' ∉ cs
  start : ∀ c ∈ cs.head?, unlike c = false

structure Words (cs : List Char) : Prop where
  small : ∀ c ∈ cs, c.isUpper = false
  leads : ∀ rest, '_' :: rest <:+ cs → ∃ c ∈ rest.head?, c.isLower

structure Snake (cs : List Char) : Prop extends Words cs where
  start : cs.head? ≠ some '_'

structure InverseOn (f g : Convention) (A B : List Char → Prop) : Prop where
  forth : ∀ name : String, A name.toList → B (f.convert name).toList
  back : ∀ name : String, B name.toList → A (g.convert name).toList
  left_inverse_iff : ∀ name : String, g.convert (f.convert name) = name ↔ A name.toList
  right_inverse_iff : ∀ name : String, f.convert (g.convert name) = name ↔ B name.toList

theorem convert_convert_eq_iff {f g : Convention} {name : String} :
    g.convert (f.convert name) = name ↔ g.apply (f.apply name.toList) = name.toList := by
  rw [← String.toList_inj, toList_convert, toList_convert]

def snakeTail (letter : Char → Char) (rest : List Char) : List Char :=
  if startsUpper rest then '_' :: toSnake letter rest else toSnake letter rest

theorem toSnake_cons (letter : Char → Char) (c : Char) (rest : List Char) :
    toSnake letter (c :: rest) = letter c :: snakeTail letter rest := by
  rw [toSnake, snakeTail]
  split <;> rfl

theorem snakeTail_cons_of_isUpper {c : Char} (hc : c.isUpper) (rest : List Char) :
    snakeTail Char.toLower (c :: rest) = '_' :: c.toLower :: snakeTail Char.toLower rest := by
  rw [snakeTail, startsUpper, if_pos hc, toSnake_cons]

theorem snakeTail_cons {c : Char} (hc : c.isUpper = false) (rest : List Char) :
    snakeTail Char.toLower (c :: rest) = c :: snakeTail Char.toLower rest := by
  rw [snakeTail, startsUpper, if_neg (by simp [hc]), toSnake_cons, toLower_of_isUpper_eq_false hc]

theorem toCamel_underscore (capital : Bool) (rest : List Char) :
    toCamel capital ('_' :: rest) = toCamel true rest := by
  rw [toCamel, if_pos rfl]

theorem toCamel_cons {c : Char} (hc : c ≠ '_') (capital : Bool) (rest : List Char) :
    toCamel capital (c :: rest) = (if capital then c.toUpper else c) :: toCamel false rest := by
  rw [toCamel, if_neg hc]

theorem words_nil : Words [] := ⟨by simp, by simp⟩

theorem words_cons_iff {c : Char} {cs : List Char} :
    Words (c :: cs) ↔
      c.isUpper = false ∧ (c = '_' → ∃ d ∈ cs.head?, d.isLower) ∧ Words cs := by
  constructor
  · intro h
    refine ⟨h.small c (by simp), ?_, fun d hd => h.small d (by simp [hd]), ?_⟩
    · rintro rfl
      exact h.leads cs List.suffix_rfl
    · exact fun rest hrest => h.leads rest (hrest.trans (List.suffix_cons c cs))
  · rintro ⟨hc, hlead, h⟩
    refine ⟨by simpa using ⟨hc, h.small⟩, fun rest hrest => ?_⟩
    obtain heq | hrest := List.suffix_cons_iff.mp hrest
    · obtain ⟨rfl, rfl⟩ := List.cons_eq_cons.mp heq
      exact hlead rfl
    · exact h.leads rest hrest

/-- The characters before which `toSnake` puts an underscore are those that `toCamel` capitalized:
reading on after an underscore gives back the underscore. -/
theorem snakeTail_toCamel (cs : List Char) (capital : Bool) (h : Words cs)
    (hcapital : capital → ∃ c ∈ cs.head?, c.isLower) :
    snakeTail Char.toLower (toCamel capital cs) = if capital then '_' :: cs else cs := by
  -- for both values of `capital`, since an underscore sets it for the rest
  induction cs generalizing capital with
  | nil => cases capital <;> simp [toCamel, snakeTail, startsUpper, toSnake] at hcapital ⊢
  | cons c rest ih =>
    obtain ⟨hsmall, hlead, hrest⟩ := words_cons_iff.mp h
    by_cases hc : c = '_'
    · subst hc
      have hfalse : capital = false := by
        cases capital with
        | false => rfl
        | true => simp at hcapital
      rw [toCamel_underscore, ih true hrest fun _ => hlead rfl, hfalse]
      rfl
    · rw [toCamel_cons hc]
      have hnext := ih false hrest (by simp)
      cases capital with
      | false =>
        simp only [Bool.false_eq_true, if_false] at hnext ⊢
        rw [snakeTail_cons hsmall, hnext]
      | true =>
        have hlower : c.isLower := by simpa using hcapital rfl
        simp only [Bool.false_eq_true, if_false, if_true] at hnext ⊢
        rw [snakeTail_cons_of_isUpper (isUpper_toUpper hlower), toLower_toUpper,
          toLower_of_isUpper_eq_false hsmall, hnext]

theorem toCamel_snakeTail (capital : Bool) (cs : List Char) :
    toCamel capital (snakeTail Char.toLower cs) = toCamel capital cs := by
  -- for both values of `capital`, since an underscore sets it for the rest
  induction cs generalizing capital with
  | nil => rfl
  | cons c rest ih =>
    cases hupper : c.isUpper with
    | true =>
      have hc : c ≠ '_' := fun heq => absurd (heq ▸ hupper) (by decide)
      rw [snakeTail_cons_of_isUpper hupper, toCamel_underscore,
        toCamel_cons (toLower_eq_underscore_iff.not.mpr hc), toCamel_cons hc, ih, if_pos rfl,
        toUpper_toLower, toUpper_of_isUpper hupper, ite_self]
    | false =>
      rw [snakeTail_cons hupper]
      by_cases hc : c = '_'
      · rw [hc, toCamel_underscore, toCamel_underscore, ih]
      · rw [toCamel_cons hc, toCamel_cons hc, ih]

theorem toCamel_toSnake (cs : List Char) :
    toCamel true (toSnake Char.toLower cs) = toCamel true cs := by
  cases cs with
  | nil => rfl
  | cons c rest =>
    rw [toSnake_cons]
    by_cases hc : c = '_'
    · rw [hc, toCamel_underscore true rest, ← toCamel_snakeTail true rest]
      exact toCamel_underscore true _
    · rw [toCamel_cons (toLower_eq_underscore_iff.not.mpr hc), toCamel_cons hc, toCamel_snakeTail,
        if_pos rfl, if_pos rfl, toUpper_toLower]

theorem toCamel_false {cs : List Char} (h : '_' ∉ cs) : toCamel false cs = cs := by
  induction cs with
  | nil => rfl
  | cons c rest ih =>
    simp only [List.mem_cons, not_or] at h
    rw [toCamel_cons (Ne.symm h.1), ih h.2]
    rfl

theorem toCamel_true {cs : List Char} (h : '_' ∉ cs) :
    toCamel true cs = cs.modifyHead Char.toUpper := by
  cases cs with
  | nil => rfl
  | cons c rest =>
    simp only [List.mem_cons, not_or] at h
    rw [toCamel_cons (Ne.symm h.1), toCamel_false h.2, if_pos rfl, List.modifyHead_cons]

theorem words_snakeTail {cs : List Char} (h : '_' ∉ cs) : Words (snakeTail Char.toLower cs) := by
  induction cs with
  | nil => exact words_nil
  | cons c rest ih =>
    simp only [List.mem_cons, not_or] at h
    have hc : c ≠ '_' := Ne.symm h.1
    cases hupper : c.isUpper with
    | true =>
      have hword : Words (c.toLower :: snakeTail Char.toLower rest) :=
        words_cons_iff.mpr ⟨isUpper_toLower c,
          fun hunderscore => absurd (toLower_eq_underscore_iff.mp hunderscore) hc, ih h.2⟩
      rw [snakeTail_cons_of_isUpper hupper]
      exact words_cons_iff.mpr
        ⟨by decide, fun _ => ⟨c.toLower, by simp, isLower_toLower hupper⟩, hword⟩
    | false =>
      rw [snakeTail_cons hupper]
      exact words_cons_iff.mpr ⟨hupper, fun hunderscore => absurd hunderscore hc, ih h.2⟩

theorem snake_toSnake {cs : List Char} (h : '_' ∉ cs) : Snake (toSnake Char.toLower cs) := by
  cases cs with
  | nil => exact ⟨words_nil, by simp [toSnake]⟩
  | cons c rest =>
    simp only [List.mem_cons, not_or] at h
    have hc : c.toLower ≠ '_' := toLower_eq_underscore_iff.not.mpr (Ne.symm h.1)
    rw [toSnake_cons]
    have hwords : Words (c.toLower :: snakeTail Char.toLower rest) :=
      words_cons_iff.mpr
        ⟨isUpper_toLower c, fun hunderscore => absurd hunderscore hc, words_snakeTail h.2⟩
    exact ⟨hwords, by simpa using hc⟩

theorem underscore_not_mem_toCamel (capital : Bool) (cs : List Char) :
    '_' ∉ toCamel capital cs := by
  induction cs generalizing capital with
  | nil => simp [toCamel]
  | cons c rest ih =>
    by_cases hc : c = '_'
    · rw [hc, toCamel_underscore]
      exact ih true
    · rw [toCamel_cons hc, List.mem_cons, not_or]
      refine ⟨?_, ih false⟩
      cases capital with
      | false => exact Ne.symm hc
      | true => exact fun heq => hc (toUpper_eq_underscore_iff.mp heq.symm)

/-- The case of a first letter: `first` gives it, and `unlike` holds of the letters that have the
other one. -/
structure Initial (first : Char → Char) (unlike : Char → Bool) : Prop where
  unlike_first : ∀ c, unlike (first c) = false
  first_eq : ∀ c, unlike c = false → first c = c
  first_toUpper : ∀ c, first c.toUpper = first c
  toLower_first : ∀ c, (first c).toLower = c.toLower

theorem initial_toUpper : Initial Char.toUpper Char.isLower where
  unlike_first := isLower_toUpper
  first_eq _ := toUpper_of_isLower_eq_false
  first_toUpper c := toUpper_of_isLower_eq_false (isLower_toUpper c)
  toLower_first := toLower_toUpper

theorem initial_toLower : Initial Char.toLower Char.isUpper where
  unlike_first := isUpper_toLower
  first_eq _ := toLower_of_isUpper_eq_false
  first_toUpper := toLower_toUpper
  toLower_first c := toLower_of_isUpper_eq_false (isUpper_toLower c)

section Initial

variable {first : Char → Char} {unlike : Char → Bool} {cs : List Char}

theorem Initial.first_eq_underscore_iff (h : Initial first unlike) {c : Char} :
    first c = '_' ↔ c = '_' := by
  rw [← toLower_eq_underscore_iff, h.toLower_first, toLower_eq_underscore_iff]

theorem Initial.camel_toCamel (h : Initial first unlike) (cs : List Char) :
    Camel unlike ((toCamel true cs).modifyHead first) := by
  have hcs := underscore_not_mem_toCamel true cs
  cases heq : toCamel true cs with
  | nil => exact ⟨by simp, by simp⟩
  | cons c rest =>
    rw [heq, List.mem_cons, not_or] at hcs
    refine ⟨?_, by simpa using h.unlike_first c⟩
    rw [List.modifyHead_cons, List.mem_cons, not_or]
    exact ⟨fun hfirst => hcs.1 (h.first_eq_underscore_iff.mp hfirst.symm).symm, hcs.2⟩

theorem Initial.toCamel_toSnake (h : Initial first unlike) (hcs : Camel unlike cs) :
    (toCamel true (toSnake Char.toLower cs)).modifyHead first = cs := by
  rw [Convention.toCamel_toSnake, toCamel_true hcs.joined]
  cases cs with
  | nil => rfl
  | cons c rest =>
    rw [List.modifyHead_cons, List.modifyHead_cons, h.first_toUpper, h.first_eq c (hcs.start c rfl)]

theorem Initial.toSnake_toCamel (h : Initial first unlike) (hcs : Snake cs) :
    toSnake Char.toLower ((toCamel true cs).modifyHead first) = cs := by
  cases cs with
  | nil => rfl
  | cons c rest =>
    obtain ⟨hsmall, -, hrest⟩ := words_cons_iff.mp hcs.toWords
    have hc : c ≠ '_' := by simpa using hcs.start
    have htail := snakeTail_toCamel rest false hrest (by simp)
    rw [toCamel_cons hc, if_pos rfl, List.modifyHead_cons, toSnake_cons, h.first_toUpper,
      h.toLower_first, toLower_of_isUpper_eq_false hsmall, htail]
    rfl

theorem Initial.inverseOn {f : Convention} (h : Initial first unlike)
    (hf : ∀ cs, f.apply cs = (toCamel true cs).modifyHead first) :
    InverseOn lowerSnake f (Camel unlike) Snake where
  forth name hname := by
    rw [toList_convert]
    exact snake_toSnake hname.joined
  back name _ := by
    rw [toList_convert, hf]
    exact h.camel_toCamel name.toList
  left_inverse_iff name := by
    rw [convert_convert_eq_iff, hf]
    exact ⟨fun heq => heq ▸ h.camel_toCamel _, h.toCamel_toSnake⟩
  right_inverse_iff name := by
    rw [convert_convert_eq_iff, hf]
    exact ⟨fun heq => heq ▸ snake_toSnake (h.camel_toCamel name.toList).joined, h.toSnake_toCamel⟩

end Initial

theorem apply_upperCamel (cs : List Char) :
    upperCamel.apply cs = (toCamel true cs).modifyHead Char.toUpper := by
  induction cs with
  | nil => rfl
  | cons c rest ih =>
    by_cases hc : c = '_'
    · simpa [apply, hc, toCamel_underscore] using ih
    · simp [apply, toCamel_cons hc, initial_toUpper.first_toUpper]

theorem apply_lowerCamel (cs : List Char) :
    lowerCamel.apply cs = (toCamel true cs).modifyHead Char.toLower := by
  induction cs with
  | nil => rfl
  | cons c rest ih =>
    by_cases hc : c = '_'
    · simpa [apply, hc, toCamel_underscore] using ih
    · simp [apply, hc, toCamel_cons hc, initial_toLower.first_toUpper]

theorem lowerSnake_inverseOn_camel :
    InverseOn lowerSnake upperCamel (Camel Char.isLower) Snake ∧
      InverseOn lowerSnake lowerCamel (Camel Char.isUpper) Snake :=
  ⟨initial_toUpper.inverseOn apply_upperCamel, initial_toLower.inverseOn apply_lowerCamel⟩

theorem lowerSnake_inverseOn_camel_digit :
    Camel Char.isLower "ÉtatHTTP2".toList ∧
    upperCamel.convert (lowerSnake.convert "ÉtatHTTP2") = "ÉtatHTTP2" ∧
    ¬ Snake "http_2".toList ∧ lowerSnake.convert (upperCamel.convert "http_2") ≠ "http_2" := by
  have hcamel : Camel Char.isLower "ÉtatHTTP2".toList :=
    ⟨by decide, fun c hc => Option.some.inj hc ▸ rfl⟩
  have hsnake : ¬ Snake "http_2".toList := by
    intro h
    obtain ⟨c, hc, hlower⟩ := h.leads ['2'] ⟨"http".toList, rfl⟩
    exact absurd (Option.some.inj hc ▸ hlower : '2'.isLower) (by decide)
  obtain ⟨hinverse, -⟩ := lowerSnake_inverseOn_camel
  exact ⟨hcamel, (hinverse.left_inverse_iff _).mpr hcamel, hsnake,
    (hinverse.right_inverse_iff _).not.mpr hsnake⟩

end DeclTree.Convention
