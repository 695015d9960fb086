import DeclTree.Proofs.Header.ExpressionInjective
import DeclTree.Proofs.Header.SchemaText

namespace DeclTree.Header

open Text

variable {p : Char → Bool} {a b r s indent : List Char}

namespace Word

variable {word other : Word}

theorem text_injective {word other : Word} (h : word.text = other.text) : word = other := by
  obtain ⟨text, _, _⟩ := word
  obtain ⟨text', _, _⟩ := other
  obtain rfl : text = text' := h
  rfl

theorem wordChar_of_mem (word : Word) : ∀ c ∈ word.chars, wordChar c = true :=
  List.all_eq_true.mp word.all_wordChar

theorem exists_cons (word : Word) : ∃ c cs, word.chars = c :: cs ∧ wordChar c = true := by
  obtain ⟨c, cs, h⟩ := List.exists_cons_of_ne_nil word.ne_nil
  exact ⟨c, cs, h, word.wordChar_of_mem c (by simp [chars, h])⟩

theorem append_inj (hr : Stops wordChar r) (hs : Stops wordChar s)
    (h : word.chars ++ r = other.chars ++ s) : word = other ∧ r = s := by
  obtain ⟨hchars, hrest⟩ := run_append_inj word.wordChar_of_mem other.wordChar_of_mem hr hs h
  exact ⟨text_injective (String.toList_injective hchars), hrest⟩

theorem stops (h : ∀ c, wordChar c = true → p c = false) : Stops p (word.chars ++ r) := by
  obtain ⟨c, cs, hword, hc⟩ := word.exists_cons
  rw [hword]
  exact stops_cons (h c hc)

end Word

theorem over_wordChar (size : Expression Word) : (size.map Word.text).Over wordChar := by
  intro text htext
  rw [Expression.leaves_map] at htext
  obtain ⟨word, _, rfl⟩ := List.mem_map.mp htext
  exact word.wordChar_of_mem

theorem size_append_inj {size other : Expression Word}
    (hr : Stops (fun c => wordChar c || c = '(') r) (hs : Stops (fun c => wordChar c || c = '(') s)
    (h : (size.map Word.text).chars ++ r = (other.map Word.text).chars ++ s) :
    size = other ∧ r = s := by
  obtain ⟨htexts, hrest⟩ := Expression.append_inj ⟨by decide, by decide, by decide⟩
    (over_wordChar size) (over_wordChar other) hr hs h
  exact ⟨Expression.map_inj_on (fun _ _ _ _ => Word.text_injective) htexts, hrest⟩

theorem stops_dimensions {sizes : List (Expression Word)} : Stops wordChar (dimensions sizes ++ ';' :: r) := by
  cases sizes <;> exact stops_cons (by decide)

theorem dimensions_append_inj {sizes sizes' : List (Expression Word)}
    (h : dimensions sizes ++ ';' :: r = dimensions sizes' ++ ';' :: s) :
    sizes = sizes' ∧ r = s := by
  have hclose {r : List Char} : Stops (fun c => wordChar c || c = '(') (']' :: r) :=
    stops_cons (by decide)
  induction sizes generalizing sizes' with
  | nil =>
    cases sizes' with
    | nil => exact ⟨rfl, (List.cons.inj h).2⟩
    | cons size' rest' => simp [dimensions] at h
  | cons size rest ih =>
    cases sizes' with
    | nil => simp [dimensions] at h
    | cons size' rest' =>
      simp only [dimensions, List.cons_append, List.append_assoc, List.cons.injEq, true_and] at h
      obtain ⟨rfl, hrest⟩ := size_append_inj hclose hclose h
      obtain ⟨rfl, hend⟩ := ih (List.cons.inj hrest).2
      exact ⟨rfl, hend⟩

theorem markers_append_inj {n m : Nat} {word word' : Word}
    (h : List.replicate n '*' ++ (word.chars ++ r) = List.replicate m '*' ++ (word'.chars ++ s)) :
    n = m ∧ word.chars ++ r = word'.chars ++ s := by
  have hmarker (n : Nat) : ∀ c ∈ List.replicate n '*', (c == '*') = true := by
    intro c hc
    simp [List.eq_of_mem_replicate hc]
  have hword (c : Char) (hc : wordChar c = true) : (c == '*') = false := by
    by_contra hne
    have hstar : c = '*' := by simpa using hne
    rw [hstar] at hc
    exact absurd hc (by decide)
  obtain ⟨hmarkers, hrest⟩ :=
    run_append_inj (hmarker n) (hmarker m) (Word.stops hword) (Word.stops hword) h
  have hlength := congrArg List.length hmarkers
  rw [List.length_replicate, List.length_replicate] at hlength
  exact ⟨hlength, hrest⟩

theorem Declarator.append_inj {declarator other : Declarator}
    (h : declarator.chars ++ ';' :: r = other.chars ++ ';' :: s) :
    declarator = other ∧ r = s := by
  obtain ⟨pointers, name, sizes⟩ := declarator
  obtain ⟨pointers', name', sizes'⟩ := other
  simp only [chars, List.append_assoc] at h
  obtain ⟨rfl, hname⟩ := markers_append_inj h
  obtain ⟨rfl, hsizes⟩ := Word.append_inj stops_dimensions stops_dimensions hname
  obtain ⟨rfl, hrest⟩ := dimensions_append_inj hsizes
  exact ⟨rfl, hrest⟩

theorem Aggregate.heading_append_inj {kind kind' : Aggregate} {name name' : Option Word}
    (h : kind.heading name ++ r = kind'.heading name' ++ s) :
    kind = kind' ∧ name = name' ∧ r = s := by
  have hline {r : List Char} : Stops wordChar ('\n' :: r) := stops_cons (by decide)
  cases kind <;> cases kind' <;> cases name <;> cases name' <;>
    simp [heading, keyword] at h
  · exact ⟨rfl, rfl, h⟩
  · obtain ⟨rfl, hrest⟩ := Word.append_inj hline hline h
    exact ⟨rfl, rfl, (List.cons.inj hrest).2⟩
  · exact ⟨rfl, rfl, h⟩
  · obtain ⟨rfl, hrest⟩ := Word.append_inj hline hline h
    exact ⟨rfl, rfl, (List.cons.inj hrest).2⟩

theorem Aggregate.aliasLine_append_inj {kind kind' : Aggregate} {name name' : Option Word}
    (h : kind.aliasLine name ++ (kind.heading name ++ r) =
      kind'.aliasLine name' ++ (kind'.heading name' ++ s)) :
    kind = kind' ∧ name = name' ∧ r = s := by
  have hblank {r : List Char} : Stops wordChar (' ' :: r) := stops_cons (by decide)
  cases name with
  | none =>
    cases name' with
    | none => exact heading_append_inj h
    | some name' => cases kind <;> simp [aliasLine, heading, keyword] at h
  | some name =>
    cases name' with
    | none => cases kind' <;> simp [aliasLine, heading, keyword] at h
    | some name' =>
      cases kind <;> cases kind' <;> simp [aliasLine, heading, keyword] at h
      · obtain ⟨rfl, hrest⟩ := Word.append_inj hblank hblank h
        simp at hrest
        exact ⟨rfl, rfl, hrest⟩
      · obtain ⟨rfl, hrest⟩ := Word.append_inj hblank hblank h
        simp at hrest
        exact ⟨rfl, rfl, hrest⟩

theorem named_ne_heading {type : Word} {declarator : Declarator} {kind : Aggregate}
    {name : Option Word} :
    type.chars ++ ' ' :: (declarator.chars ++ ';' :: r) ≠ kind.heading name ++ s := by
  -- a type may be spelled like the keyword, but then the line goes on where that of a heading ends
  intro h
  let keyword : Word := ⟨kind.keyword, by cases kind <;> decide, by cases kind <;> decide⟩
  cases name with
  | none =>
    have h : type.chars ++ ' ' :: (declarator.chars ++ ';' :: r) = keyword.chars ++ '\n' :: s := by
      simpa [Aggregate.heading, keyword, Word.chars] using h
    obtain ⟨_, hrest⟩ := Word.append_inj (stops_cons (by decide)) (stops_cons (by decide)) h
    cases hrest
  | some name =>
    have h : type.chars ++ ' ' :: (declarator.chars ++ ';' :: r) =
        keyword.chars ++ ' ' :: (name.chars ++ '\n' :: s) := by
      simpa [Aggregate.heading, keyword, Word.chars] using h
    obtain ⟨_, hrest⟩ := Word.append_inj (stops_cons (by decide)) (stops_cons (by decide)) h
    have hname : List.replicate declarator.pointers '*' ++ (declarator.name.chars ++
        (dimensions declarator.sizes ++ ';' :: r)) =
          List.replicate 0 '*' ++ (name.chars ++ '\n' :: s) := by
      simpa [Declarator.chars] using (List.cons.inj hrest).2
    obtain ⟨_, hname⟩ := markers_append_inj hname
    obtain ⟨_, hend⟩ := Word.append_inj stops_dimensions (stops_cons (by decide)) hname
    cases hsizes : declarator.sizes <;> simp [hsizes, dimensions] at hend

def blank (c : Char) : Bool := c = ' ' || c = '\t'

namespace Members

variable {members other : Members} {level outer : Nat}

theorem blank_margin (hindent : ∀ c ∈ indent, blank c = true) (level : Nat) :
    ∀ c ∈ margin indent level, blank c = true := by
  intro c hc
  obtain ⟨line, hline, hc⟩ := List.mem_flatten.mp hc
  rw [List.eq_of_mem_replicate hline] at hc
  exact hindent c hc

theorem close_ne_line (hindent : ∀ c ∈ indent, blank c = true) {c : Char} (hc : wordChar c = true) :
    margin indent outer ++ '}' :: r ≠ margin indent level ++ c :: s := by
  intro h
  have hblank : blank c = false := by
    by_contra hb
    have hb : c = ' ' ∨ c = '\t' := by simpa [blank, or_iff_not_imp_left] using hb
    rcases hb with rfl | rfl <;> exact absurd hc (by decide)
  obtain ⟨_, hrest⟩ := run_append_inj (blank_margin hindent outer) (blank_margin hindent level)
    (stops_cons (by decide)) (stops_cons hblank) h
  obtain ⟨rfl, _⟩ := List.cons.inj hrest
  exact absurd hc (by decide)

theorem close_ne_members (hindent : ∀ c ∈ indent, blank c = true) (h : members ≠ .nil) :
    margin indent outer ++ '}' :: r ≠ members.chars indent level ++ s := by
  cases members with
  | nil => exact absurd rfl h
  | named type declarator rest =>
    obtain ⟨c, cs, htype, hc⟩ := type.exists_cons
    simp only [chars, htype, List.append_assoc, List.cons_append]
    exact close_ne_line hindent hc
  | inline kind name body declarator rest =>
    have hheading : ∃ c cs, kind.heading name = c :: cs ∧ wordChar c = true := by
      cases kind <;> cases name <;> exact ⟨_, _, rfl, by decide⟩
    obtain ⟨c, cs, hheading, hc⟩ := hheading
    simp only [chars, hheading, List.append_assoc, List.cons_append]
    exact close_ne_line hindent hc

theorem append_inj (hindent : ∀ c ∈ indent, blank c = true)
    (h : members.chars indent level ++ (margin indent outer ++ '}' :: r) =
      other.chars indent level ++ (margin indent outer ++ '}' :: s)) :
    members = other ∧ r = s := by
  have hblank {r : List Char} : Stops wordChar (' ' :: r) := stops_cons (by decide)
  induction members generalizing other level outer r s with
  | nil =>
    by_cases hother : other = .nil
    · subst hother
      have hrest := List.append_cancel_left (List.append_cancel_left h)
      exact ⟨rfl, (List.cons.inj hrest).2⟩
    · exact absurd h (close_ne_members hindent hother)
  | named type declarator rest ih =>
    cases other with
    | nil => exact absurd h.symm (close_ne_members hindent (by simp))
    | named type' declarator' rest' =>
      simp only [chars, List.append_assoc, List.cons_append, List.append_cancel_left_eq] at h
      obtain ⟨rfl, hdeclarator⟩ := Word.append_inj hblank hblank h
      obtain ⟨rfl, hrest⟩ := Declarator.append_inj (List.cons.inj hdeclarator).2
      obtain ⟨rfl, hend⟩ := ih (List.cons.inj hrest).2
      exact ⟨rfl, hend⟩
    | inline kind' name' body' declarator' rest' =>
      simp only [chars, List.append_assoc, List.cons_append, List.append_cancel_left_eq] at h
      exact absurd h named_ne_heading
  | inline kind name body declarator rest ihbody ih =>
    cases other with
    | nil => exact absurd h.symm (close_ne_members hindent (by simp))
    | named type' declarator' rest' =>
      simp only [chars, List.append_assoc, List.cons_append, List.append_cancel_left_eq] at h
      exact absurd h.symm named_ne_heading
    | inline kind' name' body' declarator' rest' =>
      simp only [chars, List.append_assoc, List.cons_append, List.append_cancel_left_eq] at h
      obtain ⟨rfl, rfl, hopen⟩ := Aggregate.heading_append_inj h
      simp only [List.append_cancel_left_eq, List.cons.injEq, true_and] at hopen
      obtain ⟨rfl, hclose⟩ := ihbody hopen
      obtain ⟨rfl, hrest⟩ := Declarator.append_inj (List.cons.inj hclose).2
      obtain ⟨rfl, hend⟩ := ih (List.cons.inj hrest).2
      exact ⟨rfl, hend⟩

end Members

namespace Schema

variable {schema other : Schema}

theorem chars_injective (hindent : ∀ c ∈ indent, blank c = true)
    (h : schema.chars indent = other.chars indent) : schema = other := by
  obtain ⟨kind, name, members⟩ := schema
  obtain ⟨kind', name', members'⟩ := other
  obtain ⟨rfl, rfl, hbody⟩ := Aggregate.aliasLine_append_inj h
  have hmembers : members.chars indent 1 ++ (margin indent 0 ++ '}' :: [';', '\n', '\n']) =
      members'.chars indent 1 ++ (margin indent 0 ++ '}' :: [';', '\n', '\n']) :=
    (List.cons.inj (List.cons.inj hbody).2).2
  obtain ⟨rfl, _⟩ := Members.append_inj hindent hmembers
  rfl

end Schema

/-- Aggregates that print the same are the same but for the numbers of their nodes and the
initializers of their members. -/
theorem schema_eq_of_emitText_eq {tree tree' : Tree} {options : Options} {id id' : NodeId}
    {schema schema' : Schema} (hindent : options.indent.toList.all blank)
    (h : schema.Describes tree options id) (h' : schema'.Describes tree' options id')
    (htext : emitText tree options id false = emitText tree' options id' false) :
    schema = schema' := by
  rw [emitText_of_describes h, emitText_of_describes h'] at htext
  exact Schema.chars_injective (List.all_eq_true.mp hindent) (String.ofList_injective (Except.ok.inj htext))

def gridX : Declarator where
  pointers := 1
  name := ⟨"x", by decide, by decide⟩
  sizes := [.unary .negate (.leaf ⟨"4", by decide, by decide⟩)]

def gridU : Declarator where
  pointers := 0
  name := ⟨"u", by decide, by decide⟩
  sizes := []

def grid : Schema where
  kind := .struct
  name := some ⟨"grid", by decide, by decide⟩
  members := .named ⟨"int", by decide, by decide⟩ gridX (.inline .union none .nil gridU .nil)

def gridTree : Tree where
  nodes := #[⟨.numericConstant, some "4", none, []⟩, ⟨.unary .negate 0, some "-", none, []⟩,
    ⟨.typeUsage ⟨1, [1], none, none⟩, some "int", none, []⟩,
    ⟨.declaration 2 none, some "x", some 6, []⟩, ⟨.union [], none, none, []⟩,
    ⟨.typeUsage ⟨0, [], some 4, none⟩, none, none, []⟩, ⟨.declaration 5 none, some "u", none, []⟩,
    ⟨.struct [3, 6], some "grid", none, []⟩]

def gridTree' : Tree where
  nodes := #[⟨.union [], none, none, []⟩, ⟨.typeUsage ⟨0, [], some 0, none⟩, none, none, []⟩,
    ⟨.declaration 1 none, some "u", none, []⟩, ⟨.identifier none, some "4", none, []⟩,
    ⟨.unary .negate 3, some "-", none, []⟩,
    ⟨.typeUsage ⟨1, [4], none, none⟩, some "int", none, []⟩,
    ⟨.declaration 5 (some 3), some "x", some 2, []⟩, ⟨.struct [6, 2], some "grid", none, []⟩]

theorem grid_describes : grid.Describes gridTree {} 7 := by
  have hplain : Plain gridTree {} 7 (.struct [3, 6]) (some "grid") := ⟨_, rfl, rfl, rfl, .inr rfl⟩
  have htags : gridTree.Tagless 1 := .of_forall_mem (by decide) 1
  have hsize : DescribesSize gridTree {} 1 (.unary .negate (.leaf ⟨"4", by decide, by decide⟩)) :=
    ⟨.unary .negate (.leaf (.numeric "4")), .unary rfl rfl (.leaf rfl rfl), .inr htags, rfl⟩
  have hx : Declarator.Describes gridTree {} 3 2 ⟨1, [1], none, none⟩ (some "int") gridX :=
    ⟨⟨none, _, rfl, rfl, rfl, .inr rfl⟩, ⟨_, rfl, rfl, rfl, .inr rfl⟩, rfl, .cons hsize .nil⟩
  have hu : Declarator.Describes gridTree {} 6 5 ⟨0, [], some 4, none⟩ none gridU :=
    ⟨⟨none, _, rfl, rfl, rfl, .inr rfl⟩, ⟨_, rfl, rfl, rfl, .inr rfl⟩, rfl, .nil⟩
  have haggregate : Plain gridTree {} 4 (.union []) none := ⟨_, rfl, rfl, rfl, .inr rfl⟩
  exact ⟨[3, 6], hplain, .named hx rfl (.inline hu rfl haggregate .nil .nil)⟩

theorem grid_describes' : grid.Describes gridTree' {} 7 := by
  have hplain : Plain gridTree' {} 7 (.struct [6, 2]) (some "grid") := ⟨_, rfl, rfl, rfl, .inr rfl⟩
  have htags : gridTree'.Tagless 4 := .of_forall_mem (by decide) 4
  have hsize : DescribesSize gridTree' {} 4 (.unary .negate (.leaf ⟨"4", by decide, by decide⟩)) :=
    ⟨.unary .negate (.leaf (.identifier "4")), .unary rfl rfl (.leaf rfl rfl), .inr htags, rfl⟩
  have hx : Declarator.Describes gridTree' {} 6 5 ⟨1, [4], none, none⟩ (some "int") gridX :=
    ⟨⟨some 3, _, rfl, rfl, rfl, .inr rfl⟩, ⟨_, rfl, rfl, rfl, .inr rfl⟩, rfl, .cons hsize .nil⟩
  have hu : Declarator.Describes gridTree' {} 2 1 ⟨0, [], some 0, none⟩ none gridU :=
    ⟨⟨none, _, rfl, rfl, rfl, .inr rfl⟩, ⟨_, rfl, rfl, rfl, .inr rfl⟩, rfl, .nil⟩
  have haggregate : Plain gridTree' {} 0 (.union []) none := ⟨_, rfl, rfl, rfl, .inr rfl⟩
  exact ⟨[6, 2], hplain, .named hx rfl (.inline hu rfl haggregate .nil .nil)⟩

theorem schema_eq_of_grids : ∃ schema schema' : Schema, schema.Describes gridTree {} 7 ∧
    schema'.Describes gridTree' {} 7 ∧
    emitText gridTree {} 7 false = emitText gridTree' {} 7 false ∧ schema = schema' := by
  have htext : emitText gridTree {} 7 false = emitText gridTree' {} 7 false :=
    (emitText_of_describes grid_describes).trans (emitText_of_describes grid_describes').symm
  exact ⟨grid, grid, grid_describes, grid_describes', htext,
    schema_eq_of_emitText_eq (by decide) grid_describes grid_describes' htext⟩

end DeclTree.Header
