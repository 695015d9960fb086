import DeclTree.Proofs.Header.ExpressionText

namespace DeclTree

namespace Header

variable {p : Char → Bool} {a b r s : List Char}

def Stops (p : Char → Bool) (rest : List Char) : Prop := ∀ c ∈ rest.head?, p c = false

theorem stops_nil : Stops p [] := nofun

theorem stops_cons {c : Char} (h : p c = false) : Stops p (c :: r) := by
  rintro _ ⟨⟩
  exact h

theorem Stops.mono {q : Char → Bool} (h : Stops q r) (hp : ∀ c, q c = false → p c = false) :
    Stops p r :=
  fun c hc => hp c (h c hc)

theorem run_append_inj (ha : ∀ c ∈ a, p c = true) (hb : ∀ c ∈ b, p c = true) (hr : Stops p r)
    (hs : Stops p s) (h : a ++ r = b ++ s) : a = b ∧ r = s := by
  induction a generalizing b with
  | nil =>
    cases b with
    | nil => exact ⟨rfl, h⟩
    | cons y b =>
      have hy : p y = false := hr y (congrArg List.head? h)
      have hy' : p y = true := hb y List.mem_cons_self
      rw [hy] at hy'
      cases hy'
  | cons x a ih =>
    cases b with
    | nil =>
      have hx : p x = false := hs x (congrArg List.head? h).symm
      have hx' : p x = true := ha x List.mem_cons_self
      rw [hx] at hx'
      cases hx'
    | cons y b =>
      have h : x :: (a ++ r) = y :: (b ++ s) := h
      obtain ⟨rfl, htail⟩ := List.cons.inj h
      obtain ⟨rfl, hrest⟩ := ih (fun c hc => ha c (List.mem_cons_of_mem x hc))
        (fun c hc => hb c (List.mem_cons_of_mem x hc)) htail
      exact ⟨rfl, hrest⟩

theorem run_append_ne_cons {c : Char} (ha : ∀ c ∈ a, p c = true) (hc : p c = false)
    (hr : r.head? ≠ some c) : a ++ r ≠ c :: s := by
  intro h
  cases a with
  | nil =>
    rw [List.nil_append] at h
    exact hr (congrArg List.head? h)
  | cons x a =>
    obtain ⟨rfl, _⟩ := List.cons.inj h
    have hx : p x = true := ha x List.mem_cons_self
    rw [hc] at hx
    cases hx

theorem unary_append_inj {op op' : UnaryOp}
    (h : op.spelling.toList ++ r = op'.spelling.toList ++ s) : op = op' ∧ r = s := by
  cases op <;> cases op' <;> simp_all [UnaryOp.spelling]

theorem binary_append_inj {op op' : BinaryOp}
    (h : op.spelling.toList ++ ' ' :: r = op'.spelling.toList ++ ' ' :: s) : op = op' ∧ r = s := by
  have hspace (op : BinaryOp) : ∀ c ∈ op.spelling.toList, (c != ' ') = true := by
    apply List.all_eq_true.mp
    cases op <;> decide
  obtain ⟨hop, hrest⟩ := run_append_inj (hspace op) (hspace op') (stops_cons (by decide))
    (stops_cons (by decide)) h
  exact ⟨BinaryOp.spelling_injective (String.toList_injective hop), (List.cons.inj hrest).2⟩

end Header

namespace Expression

open Header

def Over (p : Char → Bool) (e : Expression String) : Prop :=
  ∀ text ∈ e.leaves, ∀ c ∈ text.toList, p c = true

section Injective

variable {p : Char → Bool} {a r s : List Char} {e e' operand left right : Expression String}

theorem chars_unary_append {op : UnaryOp} :
    (unary op operand).chars ++ r = '(' :: (op.spelling.toList ++ (operand.chars ++ ')' :: r)) := by
  simp [chars]

theorem chars_binary_append {op : BinaryOp} :
    (binary op left right).chars ++ r =
      '(' :: (left.chars ++ ' ' :: (op.spelling.toList ++ ' ' :: (right.chars ++ ')' :: r))) := by
  simp [chars]

theorem over_binary {op : BinaryOp} :
    (binary op left right).Over p ↔ left.Over p ∧ right.Over p := by
  simp [Over, leaves, or_imp, forall_and]

structure Delimits (p : Char → Bool) : Prop where
  blank : p ' ' = false
  opening : p '(' = false
  closing : p ')' = false

theorem closed_ne_run (hp : Delimits p) (he : e.Over p) (ha : ∀ c ∈ a, p c = true) :
    e.chars ++ ')' :: r ≠ a ++ ' ' :: s := by
  intro h
  cases e with
  | leaf text =>
    obtain ⟨_, hrest⟩ := run_append_inj (he text (by simp [leaves])) ha (stops_cons hp.closing)
      (stops_cons hp.blank) h
    cases hrest
  | unary | binary => exact run_append_ne_cons ha hp.opening (by simp) h.symm

/-- Neither a sign nor the word in parentheses can be the start of a left operand. -/
theorem unary_ne_binary (hp : Delimits p) {op : UnaryOp} (hoperand : operand.Over p)
    (hleft : left.Over p) :
    op.spelling.toList ++ (operand.chars ++ ')' :: r) ≠ left.chars ++ ' ' :: s := by
  intro h
  cases left with
  | leaf text =>
    have hrun : ∀ c ∈ text.toList, p c = true := hleft text (by simp [leaves])
    cases op with
    | invalid => exact run_append_ne_cons hrun hp.opening (by simp) h.symm
    | negate | not | bitNot =>
      -- a leaf that starts with the sign ends at a blank, an operand at a parenthesis
      cases hchars : text.toList with
      | nil => simp [UnaryOp.spelling, chars, hchars] at h
      | cons c cs =>
        rw [hchars] at hrun
        have htail : operand.chars ++ ')' :: r = cs ++ ' ' :: s := by
          simp [UnaryOp.spelling, chars, hchars] at h
          exact h.2
        exact closed_ne_run hp hoperand (fun c hc => hrun c (List.mem_cons_of_mem _ hc)) htail
  | unary op' operand' =>
    cases op <;> cases op' <;> simp [UnaryOp.spelling, chars] at h
  | binary op' left' right' =>
    cases op with
    | invalid =>
      cases left' with
      | leaf text =>
        -- the word ends at a parenthesis, a leaf at a blank
        have hword : ∀ c ∈ "invalid".toList, (c != ' ' && c != ')') = true :=
          List.all_eq_true.mp (by decide)
        have hrun : ∀ c ∈ text.toList, (c != ' ' && c != ')') = true := by
          intro c hc
          have hc : p c = true := hleft text (by simp [leaves]) c hc
          have hblank : c ≠ ' ' := by
            rintro rfl
            simp [hp.blank] at hc
          have hclosing : c ≠ ')' := by
            rintro rfl
            simp [hp.closing] at hc
          simp [hblank, hclosing]
        have h : "invalid".toList ++ ')' :: (operand.chars ++ ')' :: r) =
            text.toList ++ ' ' :: (op'.spelling.toList ++ ' ' :: (right'.chars ++ ')' :: ' ' :: s)) := by
          simpa [UnaryOp.spelling, chars] using h
        obtain ⟨_, hrest⟩ := run_append_inj hword hrun (stops_cons (by decide))
          (stops_cons (by decide)) h
        cases hrest
      | unary | binary => simp [UnaryOp.spelling, chars] at h
    | _ => simp [UnaryOp.spelling, chars] at h

/-- An expression is read off its text, whatever comes after, as long as that neither goes on with
a leaf nor opens a parenthesis. -/
theorem append_inj (hp : Delimits p) (he : e.Over p) (he' : e'.Over p)
    (hr : Stops (fun c => p c || c = '(') r) (hs : Stops (fun c => p c || c = '(') s)
    (h : e.chars ++ r = e'.chars ++ s) : e = e' ∧ r = s := by
  have hopening {r : List Char} (hr : Stops (fun c => p c || c = '(') r) : r.head? ≠ some '(' := by
    intro hhead
    simpa using hr '(' hhead
  have hrun {r : List Char} (hr : Stops (fun c => p c || c = '(') r) : Stops p r :=
    hr.mono fun c hc => (by simpa using hc : _ ∧ _).1
  have hblank {r : List Char} : Stops (fun c => p c || c = '(') (' ' :: r) :=
    stops_cons (by simp [hp.blank])
  have hclose {r : List Char} : Stops (fun c => p c || c = '(') (')' :: r) :=
    stops_cons (by simp [hp.closing])
  induction e generalizing e' r s with
  | leaf text =>
    have htext : ∀ c ∈ text.toList, p c = true := he text (by simp [leaves])
    cases e' with
    | leaf text' =>
      obtain ⟨hchars, hrest⟩ :=
        run_append_inj htext (he' text' (by simp [leaves])) (hrun hr) (hrun hs) h
      obtain rfl : text = text' := String.toList_injective hchars
      exact ⟨rfl, hrest⟩
    | unary | binary => exact absurd h (run_append_ne_cons htext hp.opening (hopening hr))
  | unary op operand ih =>
    cases e' with
    | leaf text =>
      exact absurd h.symm (run_append_ne_cons (he' text (by simp [leaves])) hp.opening (hopening hs))
    | unary op' operand' =>
      rw [chars_unary_append, chars_unary_append] at h
      have hoperand : operand.Over p := he
      have hoperand' : operand'.Over p := he'
      obtain ⟨rfl, hchars⟩ := unary_append_inj (List.cons.inj h).2
      obtain ⟨rfl, hrest⟩ := ih hoperand hoperand' hclose hclose hchars
      exact ⟨rfl, (List.cons.inj hrest).2⟩
    | binary op' left' right' =>
      rw [chars_unary_append, chars_binary_append] at h
      exact absurd (List.cons.inj h).2 (unary_ne_binary hp he (over_binary.mp he').1)
  | binary op left right ihl ihr =>
    obtain ⟨hleft, hright⟩ := over_binary.mp he
    cases e' with
    | leaf text =>
      exact absurd h.symm (run_append_ne_cons (he' text (by simp [leaves])) hp.opening (hopening hs))
    | unary op' operand' =>
      rw [chars_binary_append, chars_unary_append] at h
      exact absurd (List.cons.inj h).2.symm (unary_ne_binary hp he' hleft)
    | binary op' left' right' =>
      obtain ⟨hleft', hright'⟩ := over_binary.mp he'
      rw [chars_binary_append, chars_binary_append] at h
      obtain ⟨rfl, hop⟩ := ihl hleft hleft' hblank hblank (List.cons.inj h).2
      obtain ⟨rfl, hchars⟩ := binary_append_inj (List.cons.inj hop).2
      obtain ⟨rfl, hrest⟩ := ihr hright hright' hclose hclose hchars
      exact ⟨rfl, (List.cons.inj hrest).2⟩

end Injective

end Expression

namespace Header

def leafChar (c : Char) : Bool := c != ' ' && c != '(' && c != ')'

theorem over_leafChar {e : Expression Atom}
    (h : ∀ atom ∈ e.leaves, atom.text.toList.all leafChar) : (e.map Atom.text).Over leafChar := by
  intro text htext
  rw [Expression.leaves_map] at htext
  obtain ⟨atom, hatom, rfl⟩ := List.mem_map.mp htext
  exact List.all_eq_true.mp (h atom hatom)

/-- Expressions that print the same have the same shape, operators and leaves. Whether a leaf is a
name or a constant does not show, so their values are the same only if all leaves are numbers. -/
theorem texts_eq_of_emitText_eq {tree tree' : Tree} {options options' : Options}
    {id id' : NodeId} {e e' : Expression Atom} (h : e.Describes tree id)
    (h' : e'.Describes tree' id') (htags : options.tagComments = false ∨ tree.Tagless id)
    (htags' : options'.tagComments = false ∨ tree'.Tagless id')
    (hleaves : ∀ atom ∈ e.leaves, atom.text.toList.all leafChar)
    (hleaves' : ∀ atom ∈ e'.leaves, atom.text.toList.all leafChar)
    (htext : emitText tree options id false = emitText tree' options' id' false) :
    e.map Atom.text = e'.map Atom.text ∧
      ((∀ atom ∈ e.leaves, atom.isNumeric) → (∀ atom ∈ e'.leaves, atom.isNumeric) →
        ∃ v, tree.value id = .ok v ∧ tree'.value id' = .ok v) := by
  have hchars : (e.map Atom.text).chars ++ [] = (e'.map Atom.text).chars ++ [] := by
    rw [emitText_of_expression h htags, emitText_of_expression h' htags'] at htext
    rw [String.ofList_injective (Except.ok.inj htext)]
  obtain ⟨htexts, _⟩ := Expression.append_inj ⟨by decide, by decide, by decide⟩
    (over_leafChar hleaves) (over_leafChar hleaves') stops_nil stops_nil hchars
  refine ⟨htexts, fun hnumeric hnumeric' => ?_⟩
  have heq : e = e' := by
    refine Expression.map_inj_on (fun a ha b hb hab => ?_) htexts
    exact Atom.eq_of_text_eq (hnumeric a ha) (hnumeric' b hb) hab
  exact ⟨e.value, h.value_eq, heq ▸ h'.value_eq⟩

def signs : Expression Atom :=
  .unary .negate (.binary .sub (.leaf (.numeric "-")) (.binary .invalid (.leaf (.numeric "-1"))
    (.leaf (.numeric ""))))

def signsTree : Tree where
  nodes := #[⟨.numericConstant, some "-", none, []⟩, ⟨.numericConstant, some "-1", none, []⟩,
    ⟨.numericConstant, none, none, []⟩, ⟨.binary .invalid 1 2, some "(invalid)", none, []⟩,
    ⟨.binary .sub 0 3, some "-", none, []⟩, ⟨.unary .negate 4, some "-", none, []⟩]

def signsTree' : Tree where
  nodes := #[⟨.tag [], some "t", none, []⟩, ⟨.numericConstant, some "", none, [0]⟩,
    ⟨.numericConstant, some "-1", none, []⟩, ⟨.binary .invalid 2 1, none, none, []⟩,
    ⟨.numericConstant, some "-", none, []⟩, ⟨.binary .sub 4 3, none, none, []⟩,
    ⟨.unary .negate 5, none, none, [0]⟩]

theorem texts_eq_of_signs :
    signs.Describes signsTree 5 ∧ signs.Describes signsTree' 6 ∧
      emitText signsTree {} 5 false = .ok "(-(- - (-1 (invalid) )))" ∧
      emitText signsTree' (.ofSettings [.withoutTagComments]) 6 false =
        .ok "(-(- - (-1 (invalid) )))" ∧
      ∃ v, signsTree.value 5 = .ok v ∧ signsTree'.value 6 = .ok v := by
  have h : signs.Describes signsTree 5 :=
    .unary rfl rfl (.binary rfl rfl (.leaf rfl rfl) (.binary rfl rfl (.leaf rfl rfl)
      (.leaf rfl rfl)))
  have h' : signs.Describes signsTree' 6 :=
    .unary rfl rfl (.binary rfl rfl (.leaf rfl rfl) (.binary rfl rfl (.leaf rfl rfl)
      (.leaf rfl rfl)))
  have htags : signsTree.Tagless 5 := .of_forall_mem (by decide) 5
  have hleaves : ∀ atom ∈ signs.leaves, atom.text.toList.all leafChar := by decide
  have hnumeric : ∀ atom ∈ signs.leaves, atom.isNumeric := by decide
  have htext : emitText signsTree {} 5 false = .ok "(-(- - (-1 (invalid) )))" :=
    emitText_of_expression h (.inr htags)
  have htext' : emitText signsTree' (.ofSettings [.withoutTagComments]) 6 false =
      .ok "(-(- - (-1 (invalid) )))" :=
    emitText_of_expression h' (.inl rfl)
  obtain ⟨_, hvalue⟩ := texts_eq_of_emitText_eq h h' (.inr htags) (.inl rfl) hleaves hleaves
    (htext.trans htext'.symm)
  exact ⟨h, h', htext, htext', hvalue hnumeric hnumeric⟩

end Header

end DeclTree
