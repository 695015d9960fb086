import DeclTree.Proofs.Collections
import DeclTree.Proofs.Naming.CamelSnake
import DeclTree.Proofs.Naming.Streaming

namespace DeclTree.Convention

def humps (cs : List Char) : List (List Char) := cs.splitBy fun _ next => !next.isUpper

def wordsOf (cs : List Char) : List (List Char) :=
  ((cs.splitOn '_').flatMap humps).filter (· ≠ [])

def trailingSpace (cs : List Char) : List Char :=
  if cs.getLast? = some '_' ∧ wordsOf cs ≠ [] then [' '] else []

def spell : Convention → List Char → List Char
  | spaced, cs => [' '].intercalate (wordsOf cs) ++ trailingSpace cs
  | lowerSnake, cs => (['_'].intercalate (humps cs)).map Char.toLower
  | upperSnake, cs => (['_'].intercalate (humps cs)).map Char.toUpper
  | upperCamel, cs => ((cs.splitOn '_').map (List.modifyHead Char.toUpper)).flatten
  | lowerCamel, cs =>
    (((cs.splitOn '_').map (List.modifyHead Char.toUpper)).flatten).modifyHead Char.toLower

theorem humps_cons_of_startsUpper {c : Char} {rest : List Char} (h : startsUpper rest) :
    humps (c :: rest) = [c] :: humps rest := by
  cases rest with
  | nil => cases h
  | cons d rest =>
    have hcut : ∀ x ∈ [c].getLast?, (!d.isUpper) = false := fun _ _ => by simpa [startsUpper] using h
    exact List.splitBy_append_cons (r := fun _ next => !next.isUpper) (l := [c]) rest hcut

theorem humps_cons {c : Char} {rest : List Char} (h : startsUpper rest = false) (hne : rest ≠ []) :
    humps (c :: rest) = (humps rest).modifyHead (c :: ·) := by
  cases rest with
  | nil => exact absurd rfl hne
  | cons d rest => exact splitBy_cons_cons (by simpa [startsUpper] using h) rest

theorem humps_ne_nil {cs : List Char} (h : cs ≠ []) : humps cs ≠ [] := List.splitBy_ne_nil.mpr h

theorem toSnake_eq_spell {letter : Char → Char} (hletter : letter '_' = '_') (cs : List Char) :
    toSnake letter cs = (['_'].intercalate (humps cs)).map letter := by
  induction cs with
  | nil => rfl
  | cons c rest ih =>
    by_cases hne : rest = []
    · subst hne
      rfl
    rw [toSnake]
    cases h : startsUpper rest with
    | true =>
      rw [humps_cons_of_startsUpper h, List.intercalate_cons_of_ne_nil (humps_ne_nil hne), ih]
      simp [hletter]
    | false =>
      rw [humps_cons h hne, intercalate_modifyHead_cons (humps_ne_nil hne), ih]
      simp

section Segments

variable {c : Char} {cs rest segment : List Char} {segments : List (List Char)}

theorem exists_splitOn (cs : List Char) :
    ∃ segment segments, cs.splitOn '_' = segment :: segments :=
  List.exists_cons_of_ne_nil (List.splitOn_ne_nil '_' cs)

theorem splitOn_underscore (rest : List Char) :
    ('_' :: rest).splitOn '_' = [] :: rest.splitOn '_' := by
  simp [List.splitOn_eq_splitOnP, List.splitOnP_cons_eq_if_modifyHead]

theorem splitOn_cons (hc : c ≠ '_') (h : rest.splitOn '_' = segment :: segments) :
    (c :: rest).splitOn '_' = (c :: segment) :: segments := by
  rw [List.splitOn_eq_splitOnP] at h ⊢
  simp [List.splitOnP_cons_eq_if_modifyHead, hc, h]

theorem exists_splitOn_cons (hc : c ≠ '_') (rest : List Char) :
    ∃ segment segments, (c :: rest).splitOn '_' = (c :: segment) :: segments := by
  obtain ⟨segment, segments, h⟩ := exists_splitOn rest
  exact ⟨segment, segments, splitOn_cons hc h⟩

theorem wordsOf_eq (cs : List Char) : wordsOf cs = (cs.splitOn '_').flatMap humps := by
  rw [wordsOf, List.filter_eq_self]
  intro word hword
  obtain ⟨segment, -, hword⟩ := List.mem_flatMap.mp hword
  simpa using List.ne_nil_of_mem_splitBy hword

theorem wordsOf_of_splitOn (h : cs.splitOn '_' = segment :: segments) :
    wordsOf cs = humps segment ++ segments.flatMap humps := by
  rw [wordsOf_eq, h, List.flatMap_cons]

theorem wordsOf_underscore (rest : List Char) : wordsOf ('_' :: rest) = wordsOf rest := by
  rw [wordsOf_of_splitOn (splitOn_underscore rest), wordsOf_eq]
  rfl

theorem wordsOf_ne_nil (hc : c ≠ '_') (rest : List Char) : wordsOf (c :: rest) ≠ [] := by
  obtain ⟨segment, segments, h⟩ := exists_splitOn_cons hc rest
  rw [wordsOf_of_splitOn h]
  exact List.append_ne_nil_of_left_ne_nil (humps_ne_nil (List.cons_ne_nil c segment)) _

theorem wordsOf_singleton (hc : c ≠ '_') : wordsOf [c] = [[c]] :=
  wordsOf_of_splitOn (splitOn_cons hc (List.splitOn_nil '_'))

theorem wordsOf_cons_of_break (hc : c ≠ '_')
    (h : startsUpper rest || rest.head? = some '_') : wordsOf (c :: rest) = [c] :: wordsOf rest := by
  cases rest with
  | nil => cases h
  | cons d rest =>
    by_cases hd : d = '_'
    · have hrest := splitOn_underscore rest
      rw [hd, wordsOf_of_splitOn (splitOn_cons hc hrest), wordsOf_of_splitOn hrest]
      rfl
    · obtain ⟨segment, segments, hrest⟩ := exists_splitOn_cons hd rest
      have hupper : startsUpper (d :: segment) := by simpa [startsUpper, hd] using h
      rw [wordsOf_of_splitOn (splitOn_cons hc hrest), wordsOf_of_splitOn hrest,
        humps_cons_of_startsUpper hupper]
      rfl

theorem wordsOf_cons (hc : c ≠ '_') (h : (startsUpper rest || rest.head? = some '_') = false)
    (hne : rest ≠ []) :
    wordsOf (c :: rest) = (wordsOf rest).modifyHead (c :: ·) ∧ wordsOf rest ≠ [] := by
  cases rest with
  | nil => exact absurd rfl hne
  | cons d rest =>
    have hd : d ≠ '_' := by
      rintro rfl
      simp at h
    obtain ⟨segment, segments, hrest⟩ := exists_splitOn_cons hd rest
    have hsmall : startsUpper (d :: segment) = false := by simpa [startsUpper, hd] using h
    have hsegment := List.cons_ne_nil d segment
    obtain ⟨hump, others, hhumps⟩ := List.exists_cons_of_ne_nil (humps_ne_nil hsegment)
    refine ⟨?_, wordsOf_ne_nil hd rest⟩
    rw [wordsOf_of_splitOn (splitOn_cons hc hrest), wordsOf_of_splitOn hrest,
      humps_cons hsmall hsegment, hhumps]
    rfl

theorem getLast?_of_wordsOf_eq_nil (h : wordsOf rest = []) (hne : rest ≠ []) :
    rest.getLast? = some '_' := by
  induction rest with
  | nil => exact absurd rfl hne
  | cons c rest ih =>
    by_cases hc : c = '_'
    · rw [hc, wordsOf_underscore] at h
      by_cases hrest : rest = []
      · rw [hc, hrest]
        rfl
      · rw [List.getLast?_cons_of_ne_nil hrest, ih h hrest]
    · exact absurd h (wordsOf_ne_nil hc rest)

theorem trailingSpace_cons (hrest : wordsOf rest ≠ []) (h : wordsOf (c :: rest) ≠ []) :
    trailingSpace (c :: rest) = trailingSpace rest := by
  have hne : rest ≠ [] := by
    rintro rfl
    exact hrest rfl
  simp [trailingSpace, List.getLast?_cons_of_ne_nil hne, hrest, h]

theorem spell_spaced_underscore (rest : List Char) :
    spaced.spell ('_' :: rest) = spaced.spell rest := by
  rw [spell, spell, wordsOf_underscore]
  by_cases hrest : wordsOf rest = []
  · simp [trailingSpace, wordsOf_underscore, hrest]
  · rw [trailingSpace_cons hrest (by rwa [wordsOf_underscore])]

theorem spell_spaced_of_break (hc : c ≠ '_') (h : startsUpper rest || rest.head? = some '_') :
    spaced.spell (c :: rest) = c :: ' ' :: spaced.spell rest := by
  have hwords := wordsOf_ne_nil hc rest
  rw [spell, spell, wordsOf_cons_of_break hc h]
  by_cases hrest : wordsOf rest = []
  · -- only underscores follow, and the word is the last one
    have hne : rest ≠ [] := by
      rintro rfl
      cases h
    have hlast := getLast?_of_wordsOf_eq_nil hrest hne
    simp [trailingSpace, List.getLast?_cons_of_ne_nil hne, hlast, hrest, hwords]
  · rw [trailingSpace_cons hrest hwords, List.intercalate_cons_of_ne_nil hrest]
    simp

theorem spell_spaced_cons (hc : c ≠ '_')
    (h : (startsUpper rest || rest.head? = some '_') = false) :
    spaced.spell (c :: rest) = c :: spaced.spell rest := by
  rw [spell, spell]
  by_cases hne : rest = []
  · rw [hne, trailingSpace, wordsOf_singleton hc]
    simp [hc, wordsOf_eq, trailingSpace, humps]
  · obtain ⟨hcons, hrest⟩ := wordsOf_cons hc h hne
    rw [trailingSpace_cons hrest (wordsOf_ne_nil hc rest), hcons, intercalate_modifyHead_cons hrest]
    rfl

end Segments

theorem toSpaced_eq_spell (cs : List Char) : toSpaced cs = spaced.spell cs := by
  induction cs with
  | nil => rfl
  | cons c rest ih =>
    rw [toSpaced, ih]
    by_cases hc : c = '_'
    · rw [if_pos hc, hc, spell_spaced_underscore]
    · rw [if_neg hc]
      cases h : (startsUpper rest || rest.head? = some '_') with
      | true => rw [if_pos rfl, spell_spaced_of_break hc h]
      | false => rw [if_neg Bool.false_ne_true, spell_spaced_cons hc h]

theorem toCamel_eq_spell {cs segment : List Char} {segments : List (List Char)} (capital : Bool)
    (h : cs.splitOn '_' = segment :: segments) :
    toCamel capital cs = (if capital then segment.modifyHead Char.toUpper else segment) ++
      (segments.map (List.modifyHead Char.toUpper)).flatten := by
  -- `capital` says whether the first segment is a whole one
  induction cs generalizing capital segment segments with
  | nil =>
    obtain ⟨rfl, rfl⟩ := List.cons_eq_cons.mp h
    cases capital <;> rfl
  | cons c rest ih =>
    obtain ⟨first, others, hrest⟩ := exists_splitOn rest
    by_cases hc : c = '_'
    · rw [hc, splitOn_underscore, hrest] at h
      obtain ⟨rfl, rfl⟩ := List.cons_eq_cons.mp h
      rw [hc, toCamel_underscore, ih true hrest]
      cases capital <;> rfl
    · rw [splitOn_cons hc hrest] at h
      obtain ⟨rfl, rfl⟩ := List.cons_eq_cons.mp h
      rw [toCamel_cons hc, ih false hrest]
      cases capital <;> rfl

theorem toCamel_true_eq_spell (cs : List Char) :
    toCamel true cs = ((cs.splitOn '_').map (List.modifyHead Char.toUpper)).flatten := by
  obtain ⟨segment, segments, h⟩ := exists_splitOn cs
  rw [toCamel_eq_spell true h, h]
  rfl

theorem apply_eq_spell (convention : Convention) (cs : List Char) :
    convention.apply cs = convention.spell cs := by
  cases convention with
  | spaced => exact toSpaced_eq_spell cs
  | lowerSnake | upperSnake => exact toSnake_eq_spell rfl cs
  | upperCamel => exact toCamel_true_eq_spell cs
  | lowerCamel => rw [apply_lowerCamel, toCamel_true_eq_spell, spell]

theorem conversion_spells (convention : Convention) (name : String) :
    (convention.render name).toText = .ok (String.ofList (convention.spell name.toList)) ∧
      convention.convert name = String.ofList (convention.spell name.toList) := by
  rw [toText_render, convert_eq, apply_eq_spell]
  exact ⟨rfl, rfl⟩

example : spaced.convert "_ID__naïveÉ_" = "I D naïveÉ " := by decide

end DeclTree.Convention
