import DeclTree.Naming
import DeclTree.Proofs.Outcome

namespace DeclTree.Convention

open Rendering

def toSpaced : List Char → List Char
  | [] => []
  | c :: rest =>
    if c = '_' then toSpaced rest
    else if startsUpper rest || rest.head? = some '_' then c :: ' ' :: toSpaced rest
    else c :: toSpaced rest

def toSnake (letter : Char → Char) : List Char → List Char
  | [] => []
  | c :: rest =>
    if startsUpper rest then letter c :: '_' :: toSnake letter rest
    else letter c :: toSnake letter rest

def toCamel (capital : Bool) : List Char → List Char
  | [] => []
  | c :: rest =>
    if c = '_' then toCamel true rest
    else (if capital then c.toUpper else c) :: toCamel false rest

def apply : Convention → List Char → List Char
  | spaced, cs => toSpaced cs
  | lowerSnake, cs => toSnake Char.toLower cs
  | upperSnake, cs => toSnake Char.toUpper cs
  | upperCamel, cs => toCamel true cs
  | lowerCamel, cs =>
    match cs.dropWhile (· = '_') with
    | [] => []
    | c :: rest => c.toLower :: toCamel false rest

def streamed (cs : List Char) : Rendering Unit := cs.forM char

theorem streamed_cons (c : Char) (cs : List Char) :
    streamed (c :: cs) = write (String.singleton c) fun _ => streamed cs := rfl

theorem writeSpaced_eq (cs : List Char) : writeSpaced cs = streamed (toSpaced cs) := by
  induction cs with
  | nil => rfl
  | cons c rest ih =>
    rw [writeSpaced, toSpaced, ih]
    split
    · rfl
    · split <;> rfl

theorem writeSnake_eq (upper : Bool) (cs : List Char) :
    writeSnake upper cs = streamed (toSnake (if upper then Char.toUpper else Char.toLower) cs) := by
  induction cs with
  | nil => rfl
  | cons c rest ih =>
    rw [writeSnake, toSnake, ih]
    cases startsUpper rest <;> cases upper <;> rfl

theorem writeCamel_eq {lowerFirst first : Bool} (h : (first && lowerFirst) = false)
    (capitalize : Bool) (cs : List Char) :
    writeCamel lowerFirst capitalize first cs = streamed (toCamel capitalize cs) := by
  induction cs generalizing capitalize first with
  | nil => rfl
  | cons c rest ih =>
    rw [writeCamel, toCamel, ih h]
    split
    · rfl
    · rw [h, ih (Bool.false_and _)]
      rfl

theorem writeCamel_lowerFirst (capitalize : Bool) (cs : List Char) :
    writeCamel true capitalize true cs = streamed (lowerCamel.apply cs) := by
  induction cs generalizing capitalize with
  | nil => rfl
  | cons c rest ih =>
    rw [writeCamel, apply]
    by_cases hc : c = '_'
    · rw [if_pos hc, List.dropWhile_cons_of_pos (by simpa using hc)]
      exact ih true
    · rw [if_neg hc, List.dropWhile_cons_of_neg (by simpa using hc), writeCamel_eq rfl]
      rfl

/-- Each loop makes one write for each character of the result, be it a letter or a separator. -/
theorem render_eq (convention : Convention) (name : String) :
    convention.render name = streamed (convention.apply name.toList) := by
  cases convention with
  | spaced => exact writeSpaced_eq _
  | lowerSnake | upperSnake => exact writeSnake_eq _ _
  | upperCamel => exact writeCamel_eq rfl _ _
  | lowerCamel => exact writeCamel_lowerFirst _ _

theorem outcome_streamed (cs : List Char) : (streamed cs).outcome = .ok () := by
  induction cs with
  | nil => rfl
  | cons c cs ih =>
    rw [streamed_cons, outcome]
    exact ih

theorem written_streamed (cs : List Char) : (streamed cs).written = String.ofList cs := by
  induction cs with
  | nil => rfl
  | cons c cs ih =>
    rw [streamed_cons, written, ih, String.ofList_cons]

theorem convert_eq (convention : Convention) (name : String) :
    convention.convert name = String.ofList (convention.apply name.toList) := by
  rw [convert, into_string, render_eq, written_streamed, String.empty_append]

theorem toList_convert (f : Convention) (name : String) :
    (f.convert name).toList = f.apply name.toList := by
  rw [convert_eq, String.toList_ofList]

end DeclTree.Convention
