import DeclTree.Proofs.Naming.CamelSnake

namespace DeclTree.Convention

open Letters

def Absorbs (g f : Convention) : Prop :=
  ∀ name : String, g.convert (f.convert name) = g.convert name

theorem convert_eq_convert_iff {f g : Convention} {name name' : String} :
    f.convert name = g.convert name' ↔ f.apply name.toList = g.apply name'.toList := by
  rw [← String.toList_inj, toList_convert, toList_convert]

theorem absorbs_of_apply {f g : Convention} (h : ∀ cs, g.apply (f.apply cs) = g.apply cs) :
    g.Absorbs f := by
  intro name
  rw [convert_eq_convert_iff, toList_convert, h]

section Initial

variable {first first' : Char → Char} {unlike unlike' : Char → Bool} {f g : Convention}

theorem Initial.first_first (h : Initial first unlike) (h' : Initial first' unlike') (c : Char) :
    first (first' c) = first c := by
  have hsame {c d : Char} (heq : c.toLower = d.toLower) : first c = first d := by
    rw [← h.first_toUpper c, ← toUpper_toLower, heq, toUpper_toLower, h.first_toUpper]
  exact hsame (h'.toLower_first c)

theorem Initial.modifyHead_toCamel (h : Initial first unlike) (h' : Initial first' unlike')
    (cs : List Char) :
    (toCamel true ((toCamel true cs).modifyHead first')).modifyHead first =
      (toCamel true cs).modifyHead first := by
  have hfirst : (first ∘ Char.toUpper) ∘ first' = first := by
    funext c
    rw [Function.comp_apply, Function.comp_apply, h.first_toUpper, h.first_first h']
  rw [toCamel_true (h'.camel_toCamel cs).joined, List.modifyHead_modifyHead,
    List.modifyHead_modifyHead, hfirst]

theorem Initial.toSnake_modifyHead (h : Initial first unlike) (cs : List Char) :
    toSnake Char.toLower (cs.modifyHead first) = toSnake Char.toLower cs := by
  cases cs with
  | nil => rfl
  | cons c rest => rw [List.modifyHead_cons, toSnake_cons, toSnake_cons, h.toLower_first]

theorem absorbs_lowerSnake (hf : ∀ cs, f.apply cs = (toCamel true cs).modifyHead first) :
    f.Absorbs lowerSnake := by
  apply absorbs_of_apply
  intro cs
  rw [hf, hf, apply, toCamel_toSnake]

theorem Initial.absorbs (h : Initial first unlike) (h' : Initial first' unlike')
    (hf : ∀ cs, f.apply cs = (toCamel true cs).modifyHead first)
    (hg : ∀ cs, g.apply cs = (toCamel true cs).modifyHead first') : f.Absorbs g := by
  apply absorbs_of_apply
  intro cs
  rw [hf, hf, hg, h.modifyHead_toCamel h']

end Initial

theorem isUpper_of_mem_toSnake {letter : Char → Char} (hletter : ∀ c, (letter c).isUpper = false)
    {cs : List Char} {c : Char} (hc : c ∈ toSnake letter cs) : c.isUpper = false := by
  induction cs with
  | nil => cases hc
  | cons d rest ih =>
    rw [toSnake_cons, snakeTail] at hc
    obtain rfl | hc := List.mem_cons.mp hc
    · exact hletter d
    · split at hc
      · obtain rfl | hc := List.mem_cons.mp hc
        · rfl
        · exact ih hc
      · exact ih hc

theorem snakeTail_of_small {cs : List Char} (h : ∀ c ∈ cs, c.isUpper = false) :
    snakeTail Char.toLower cs = cs := by
  induction cs with
  | nil => rfl
  | cons c rest ih =>
    rw [snakeTail_cons (h c (by simp)), ih fun d hd => h d (List.mem_cons_of_mem c hd)]

theorem toSnake_of_small {cs : List Char} (h : ∀ c ∈ cs, c.isUpper = false) :
    toSnake Char.toLower cs = cs := by
  cases cs with
  | nil => rfl
  | cons c rest =>
    rw [toSnake_cons, toLower_of_isUpper_eq_false (h c (by simp)),
      snakeTail_of_small fun d hd => h d (List.mem_cons_of_mem c hd)]

theorem map_toSnake {f : Char → Char} (hf : f '_' = '_') (letter : Char → Char) (cs : List Char) :
    (toSnake letter cs).map f = toSnake (f ∘ letter) cs := by
  induction cs with
  | nil => rfl
  | cons c rest ih =>
    rw [toSnake_cons, toSnake_cons, List.map_cons, snakeTail, snakeTail, ← ih]
    split
    · rw [List.map_cons, hf, Function.comp_apply]
    · rfl

theorem conversions_compose :
    upperCamel.Absorbs lowerSnake ∧ lowerCamel.Absorbs lowerSnake ∧
    upperCamel.Absorbs lowerCamel ∧ lowerCamel.Absorbs upperCamel ∧
    (∀ name : String,
      lowerSnake.convert (upperCamel.convert name) = lowerSnake.convert (lowerCamel.convert name)) ∧
    (∀ name : String, upperSnake.convert name = (lowerSnake.convert name).map Char.toUpper) ∧
    lowerSnake.Absorbs lowerSnake ∧ upperCamel.Absorbs upperCamel ∧
    lowerCamel.Absorbs lowerCamel := by
  refine ⟨absorbs_lowerSnake apply_upperCamel, absorbs_lowerSnake apply_lowerCamel,
    initial_toUpper.absorbs initial_toLower apply_upperCamel apply_lowerCamel,
    initial_toLower.absorbs initial_toUpper apply_lowerCamel apply_upperCamel, ?_, ?_, ?_,
    initial_toUpper.absorbs initial_toUpper apply_upperCamel apply_upperCamel,
    initial_toLower.absorbs initial_toLower apply_lowerCamel apply_lowerCamel⟩
  · intro name
    rw [convert_eq_convert_iff, toList_convert, toList_convert, apply_upperCamel, apply_lowerCamel,
      apply, apply, initial_toUpper.toSnake_modifyHead, initial_toLower.toSnake_modifyHead]
  · intro name
    have hletter : Char.toUpper ∘ Char.toLower = Char.toUpper := funext toUpper_toLower
    rw [← String.toList_inj, String.toList_map, toList_convert, toList_convert, apply, apply,
      map_toSnake rfl, hletter]
  · exact absorbs_of_apply fun cs => toSnake_of_small fun c => isUpper_of_mem_toSnake isUpper_toLower

example : lowerSnake.convert "a__b" = "a__b" ∧
    lowerSnake.convert (upperCamel.convert "a__b") = "a_b" := by decide

end DeclTree.Convention
