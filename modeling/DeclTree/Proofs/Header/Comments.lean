import DeclTree.Proofs.Header.Triple

namespace DeclTree

structure Tree.Commentable (tree : Tree) : Prop where
  oneLine : ∀ id node, tree.node id = .ok node → '\n' ∉ node.name.toList
  slash : ∀ id node, tree.node id = .ok node → '/' ∈ node.name.toList →
    node.name = "/" ∧ ∃ left right, node.payload = .binary .div left right
  parameters : ∀ id node ids, tree.node id = .ok node → node.payload = .tag ids →
    ∀ p ∈ ids, tree.Below (fun node => node.isExpression ∧ node.tags = []) p

namespace Header

open Rendering

def uncommented : (inside : Bool) → List Char → List Char
  | _, [] => []
  | true, c :: rest => if c = '\n' then c :: uncommented false rest else uncommented true rest
  | false, c :: rest =>
    if c = '/' ∧ rest.head? = some '/' then uncommented true rest else c :: uncommented false rest

def unspaced (chars : List Char) : List Char :=
  chars.filter fun c => !(c == ' ' || c == '\t' || c == '\n')

structure Erases (s t : List Char) : Prop where
  closed : ∀ rest, uncommented false (s ++ rest) = uncommented false s ++ uncommented false rest
  same : unspaced (uncommented false s) = unspaced t

theorem uncommented_append {s : List Char} (h : '/' ∉ s) (rest : List Char) :
    uncommented false (s ++ rest) = s ++ uncommented false rest := by
  induction s with
  | nil => rfl
  | cons c s ih =>
    obtain ⟨hc, hs⟩ := not_or.mp (List.mem_cons.not.mp h)
    rw [List.cons_append, uncommented, if_neg fun hslash => hc hslash.1.symm, ih hs]
    rfl

theorem uncommented_inside {s : List Char} (h : '\n' ∉ s) (rest : List Char) :
    uncommented true (s ++ '\n' :: rest) = '\n' :: uncommented false rest := by
  induction s with
  | nil => rfl
  | cons c s ih =>
    obtain ⟨hc, hs⟩ := not_or.mp (List.mem_cons.not.mp h)
    rw [List.cons_append, uncommented, if_neg (Ne.symm hc), ih hs]

theorem unspaced_append (a b : List Char) : unspaced (a ++ b) = unspaced a ++ unspaced b :=
  List.filter_append ..

theorem unspaced_eq_nil {s : List Char} (h : ∀ c ∈ s, c = ' ' ∨ c = '\t') : unspaced s = [] := by
  rw [unspaced, List.filter_eq_nil_iff]
  intro c hc
  rcases h c hc with rfl | rfl <;> decide

namespace Erases

variable {s t s' t' : List Char}

theorem nil : Erases [] [] := ⟨fun _ => rfl, rfl⟩

theorem append (h : Erases s t) (h' : Erases s' t') : Erases (s ++ s') (t ++ t') where
  closed rest := by
    rw [List.append_assoc, h.closed, h'.closed, h.closed, List.append_assoc]
  same := by
    rw [h.closed, unspaced_append, unspaced_append, h.same, h'.same]

theorem of_noSlash (h : '/' ∉ s) : Erases s s := by
  have hs : uncommented false s = s := by simpa [uncommented] using uncommented_append h []
  exact ⟨fun rest => by rw [hs, uncommented_append h], by rw [hs]⟩

theorem lone (h : '/' ∉ s) (h' : '/' ∉ s') :
    Erases (s ++ '/' :: ' ' :: s') (s ++ '/' :: ' ' :: s') := by
  have hslash : Erases ['/', ' '] ['/', ' '] := ⟨fun _ => rfl, rfl⟩
  exact (of_noSlash h).append (hslash.append (of_noSlash h'))

theorem comment {margin : List Char} (h : '\n' ∉ s) (hmargin : ∀ c ∈ margin, c = ' ' ∨ c = '\t') :
    Erases ('/' :: '/' :: (s ++ '\n' :: margin)) [] := by
  have hslash : '/' ∉ margin := by
    intro hc
    rcases hmargin _ hc with h | h <;> cases h
  have hrest (rest : List Char) :
      uncommented false ('/' :: '/' :: (s ++ '\n' :: (margin ++ rest))) =
        '\n' :: (margin ++ uncommented false rest) := by
    have hs : '\n' ∉ '/' :: s := by simp [h]
    exact (uncommented_inside hs _).trans (congrArg _ (uncommented_append hslash rest))
  have hnil : uncommented false ('/' :: '/' :: (s ++ '\n' :: margin)) = '\n' :: margin := by
    simpa [uncommented] using hrest []
  constructor
  · intro rest
    rw [hnil]
    simpa using hrest rest
  · rw [hnil]
    change unspaced margin = []
    exact unspaced_eq_nil hmargin

end Erases

def Erasing (r r' : Rendering Unit) : Prop :=
  ∀ ⦃s⦄, Prints r s → ∃ t, Prints r' t ∧ Erases s t

namespace Erasing

variable {α : Type} {r r' s s' : Rendering Unit} {t : String} {item item' : α → Rendering Unit}
  {xs : List α}

theorem done : Erasing (.done ()) (.done ()) := by
  intro s hs
  rw [Prints.done_iff.mp hs]
  exact ⟨[], .done, .nil⟩

theorem fault (f : Fault) : Erasing (.fault f) r := by
  rintro s ⟨ho, -⟩
  cases ho

theorem text_of_erases (h : Erases t.toList t.toList) : Erasing (text t) (text t) := by
  intro s hs
  rw [Prints.text_iff.mp hs]
  exact ⟨_, .text t, h⟩

theorem text (h : '/' ∉ t.toList) : Erasing (text t) (text t) := text_of_erases (.of_noSlash h)

theorem bind (h : Erasing r r') (h' : Erasing s s') : Erasing (do r; s) (do r'; s') := by
  intro chars hchars
  obtain ⟨a, b, ha, hb, rfl⟩ := Prints.bind_iff.mp hchars
  obtain ⟨a', ha', hea⟩ := h ha
  obtain ⟨b', hb', heb⟩ := h' hb
  exact ⟨a' ++ b', ha'.bind hb', hea.append heb⟩

theorem orFault {x : Except Fault α} {next next' : α → Rendering Unit}
    (h : ∀ value, x = .ok value → Erasing (next value) (next' value)) :
    Erasing (orFault x >>= next) (orFault x >>= next') := by
  intro s hs
  obtain ⟨value, hx, hs⟩ := Prints.orFault_bind_iff.mp hs
  obtain ⟨t, ht, he⟩ := h value hx hs
  exact ⟨t, Prints.orFault_bind_iff.mpr ⟨value, hx, ht⟩, he⟩

theorem atTop (d : Nat) (h : Erasing r r') : Erasing (atTop d r) (atTop d r') := by
  unfold Header.atTop
  split
  · exact h
  · exact done

theorem repeated (h : '/' ∉ t.toList) (n : Nat) : Erasing (repeated t n) (repeated t n) := by
  induction n with
  | zero => exact done
  | succ n ih => exact (text h).bind ih

theorem forM (h : ∀ x ∈ xs, Erasing (item x) (item' x)) :
    Erasing (xs.forM item) (xs.forM item') := by
  induction xs with
  | nil => exact done
  | cons x xs ih => exact (h x (by simp)).bind (ih fun y hy => h y (List.mem_cons_of_mem x hy))

theorem separated {separator : String} (hseparator : '/' ∉ separator.toList)
    (h : ∀ x ∈ xs, Erasing (item x) (item' x)) :
    Erasing (separated separator item xs) (separated separator item' xs) := by
  induction xs with
  | nil => exact done
  | cons x xs ih =>
    cases xs with
    | nil => exact h x (by simp)
    | cons y xs =>
      have hrest := ih fun z hz => h z (List.mem_cons_of_mem x hz)
      exact (h x (by simp)).bind ((text hseparator).bind hrest)

theorem chainWithin {tree : Tree} {node node' : NodeId → Rendering Unit}
    (h : ∀ id, Erasing (node id) (node' id)) (fuel : Nat) (id : NodeId) :
    Erasing (chainWithin tree node fuel id) (chainWithin tree node' fuel id) := by
  induction fuel generalizing id with
  | zero => exact fault .endless
  | succ fuel ih =>
    rw [chainWithin_succ, chainWithin_succ]
    refine orFault fun n _ => (h id).bind ?_
    cases n.next with
    | none => exact done
    | some next => exact ih next

end Erasing

def OneLine (chars : List Char) : Prop := '\n' ∉ chars

instance : DecidablePred OneLine := fun chars => inferInstanceAs (Decidable ('\n' ∉ chars))

theorem oneLine_append {a b : List Char} : OneLine (a ++ b) ↔ OneLine a ∧ OneLine b := by
  simp [OneLine]

theorem OneLine.text {s : String} (h : '\n' ∉ s.toList) : Triple OneLine (text s) OneLine := by
  refine .text fun before hbefore => ?_
  exact oneLine_append.mpr ⟨hbefore, h⟩

variable {tree : Tree} {options : Options} {inner inner' : Renderer} {id : NodeId} {node : Node}
  {d l : Nat}

theorem oneLine_nodeWithin (h : tree.Commentable) (fuel : Nat)
    (hid : tree.Below (fun node => node.isExpression ∧ node.tags = []) id) (d l : Nat) :
    Triple OneLine (nodeWithin tree options fuel id d l) OneLine := by
  induction fuel generalizing id d l with
  | zero => exact .fault .endless
  | succ fuel ih =>
    refine .orFault fun node hnode => ?_
    obtain ⟨hexpression, htags⟩ := hid.self hnode
    have hname := OneLine.text (h.oneLine id node hnode)
    have hchild (c : NodeId) (hc : c ∈ node.payload.children) (d : Nat) :
        Triple OneLine (nodeWithin tree options fuel c d l) OneLine :=
      ih (hid.child hnode hc) d l
    rw [tagComment_of_plain (.inr htags), done_bind]
    cases hp : node.payload with
    | identifier | numericConstant | stringConstant | charConstant => exact hname
    | unary op operand =>
      have hoperand := hchild operand (by simp [hp, Payload.children]) (d + 1)
      have hopen : '\n' ∉ ("(" ++ op.spelling).toList := by
        simpa using fun hc => absurd (op.spelling_subset hc) (by decide)
      exact (OneLine.text hopen).bind (hoperand.bind (OneLine.text (by decide)))
    | binary op left right =>
      have hleft := hchild left (by simp [hp, Payload.children]) d
      have hright := hchild right (by simp [hp, Payload.children]) (d + 1)
      have hop : '\n' ∉ (" " ++ op.spelling ++ " ").toList := by
        simpa using fun hc => absurd (op.spelling_subset hc) (by decide)
      exact (OneLine.text (by decide)).bind (hleft.bind ((OneLine.text hop).bind
        (hright.bind (OneLine.text (by decide)))))
    | _ => simp [Node.isExpression, Node.type, Payload.type, hp] at hexpression

theorem oneLine_tag (h : tree.Commentable) (fuel : Nat) (id : NodeId) (d l : Nat) :
    Triple OneLine (tag tree (nodeWithin tree options fuel) id d l) OneLine := by
  refine .tag (fun node hnode => OneLine.text (h.oneLine id node hnode)) (OneLine.text (by decide))
    (OneLine.text (by decide)) (OneLine.text (by decide)) fun node ids hnode hp p hmem => ?_
  exact oneLine_nodeWithin h fuel (h.parameters id node ids hnode hp p hmem) (d + 1) l

theorem prints_blank {options : Options} {chars : List Char}
    (hindent : ∀ c ∈ options.indent.toList, c = ' ' ∨ c = '\t')
    (h : Prints (indentation options l) chars) : ∀ c ∈ chars, c = ' ' ∨ c = '\t' := by
  have hstep : Triple (∀ c ∈ ·, c = ' ' ∨ c = '\t') (text options.indent)
      (∀ c ∈ ·, c = ' ' ∨ c = '\t') := by
    refine .text fun before hbefore c hc => ?_
    exact (List.mem_append.mp hc).elim (hbefore c) (hindent c)
  exact hstep.repeated l (List.forall_mem_nil _) h

theorem erasing_tagComment (hindent : ∀ c ∈ options.indent.toList, c = ' ' ∨ c = '\t')
    (htag : ∀ id d l, Triple OneLine (tag tree inner id d l) OneLine) :
    Erasing (tagComment tree options inner node d l)
      (tagComment tree (options.set .withoutTagComments) inner' node d l) := by
  have hoff : tagComment tree (options.set .withoutTagComments) inner' node d l = done () :=
    tagComment_of_plain (.inl rfl)
  rw [hoff, tagComment]
  split
  · intro chars h
    obtain ⟨_, _, hopen, htail, rfl⟩ := Prints.bind_iff.mp h
    obtain ⟨tags, _, htags, hend, rfl⟩ := Prints.bind_iff.mp htail
    obtain ⟨_, margin, hclose, hmargin, rfl⟩ := Prints.bind_iff.mp hend
    rw [Prints.text_iff.mp hopen, Prints.text_iff.mp hclose]
    have hline : OneLine ([' '] ++ tags) :=
      Triple.separated (OneLine.text (by decide)) (fun id _ => htag id d l) (by decide) htags
    exact ⟨[], .done, .comment hline (prints_blank hindent hmargin)⟩
  · exact .done

section Printer

variable (hinner : ∀ id d l, Erasing (inner id d l) (inner' id d l))
include hinner

theorem erasing_parameters (ids : List NodeId) (d l : Nat) :
    Erasing (parameters inner ids d l) (parameters inner' ids d l) :=
  .separated (by decide) fun id _ => hinner id (d + 1) l

theorem erasing_tag (hname : ∀ node, tree.node id = .ok node → '/' ∉ node.name.toList) (d l : Nat) :
    Erasing (tag tree inner id d l) (tag tree inner' id d l) := by
  refine .orFault fun node hnode => (Erasing.text (hname node hnode)).bind ?_
  cases node.payload with
  | tag ids =>
    cases ids with
    | nil => exact .done
    | cons first rest =>
      exact (Erasing.text (by decide)).bind
        ((erasing_parameters hinner (first :: rest) d l).bind (.text (by decide)))
  | _ => exact .done

theorem erasing_braced {keyword ending : String} {name : Option String}
    (hindent : '/' ∉ options.indent.toList) (hkeyword : '/' ∉ keyword.toList)
    (hname : ∀ s ∈ name, '/' ∉ s.toList) (hending : '/' ∉ ending.toList) (ids : List NodeId)
    (d l : Nat) :
    Erasing (braced options inner keyword name ids ending d l)
      (braced (options.set .withoutTagComments) inner' keyword name ids ending d l) := by
  have halias : Erasing (typedefLine keyword name) (typedefLine keyword name) := by
    cases name with
    | none => exact .done
    | some name => exact .text (by simp [hkeyword, hname name rfl])
  have hheading : Erasing (heading keyword name) (heading keyword name) := by
    cases name with
    | none => exact .text (by simp [hkeyword])
    | some name => exact .text (by simp [hkeyword, hname name rfl])
  have hmargin (l : Nat) : Erasing (indentation options l)
      (indentation (options.set .withoutTagComments) l) := .repeated hindent l
  have hitems : Erasing (items options inner ending ids (d + 1) (l + 1))
      (items (options.set .withoutTagComments) inner' ending ids (d + 1) (l + 1)) :=
    .forM fun id _ => (hmargin (l + 1)).bind ((hinner id _ _).bind (.text hending))
  apply (halias.atTop d).bind
  apply hheading.bind
  apply (hmargin l).bind
  apply (Erasing.text (by decide)).bind
  apply hitems.bind
  apply (hmargin l).bind
  exact (Erasing.text (by decide)).bind ((Erasing.text (by decide)).atTop d)

theorem erasing_declaration {name : String} (hname : '/' ∉ name.toList) (id : NodeId)
    (initial : Option NodeId) (d l : Nat) :
    Erasing (declaration tree inner id name initial d l)
      (declaration tree inner' id name initial d l) := by
  refine .orFault fun slot _ => (hinner slot.1 d l).bind ((Erasing.text hname).bind ?_)
  have hsizes : Erasing (slot.2.arraySizes.forM (dimension inner d l))
      (slot.2.arraySizes.forM (dimension inner' d l)) :=
    .forM fun size _ => (Erasing.text (by decide)).bind ((hinner size d l).bind (.text (by decide)))
  have hinitial : Erasing (initializer inner d l initial) (initializer inner' d l initial) := by
    cases initial with
    | none => exact .done
    | some id => exact (Erasing.text (by decide)).bind (hinner id (d + 1) l)
  exact hsizes.bind ((hinitial.bind (.text (by decide))).atTop d)

theorem erasing_typeUsage {name : String} (hname : '/' ∉ name.toList) (usage : TypeUsage)
    (d l : Nat) :
    Erasing (typeUsage inner name usage d l) (typeUsage inner' name usage d l) := by
  have hbase : Erasing (base inner name d l usage.inlineAggregate)
      (base inner' name d l usage.inlineAggregate) := by
    cases usage.inlineAggregate with
    | none => exact .text hname
    | some id => exact hinner id (d + 1) l
  exact hbase.bind ((Erasing.text (by decide)).bind (.repeated (by decide) _))

theorem erasing_procedure {name : String} (hname : '/' ∉ name.toList) (returnType : Option NodeId)
    (ids : List NodeId) (d l : Nat) :
    Erasing (procedure inner name returnType ids d l)
      (procedure inner' name returnType ids d l) := by
  have hreturned : Erasing (returned inner d l returnType) (returned inner' d l returnType) := by
    cases returnType with
    | none => exact .text (by decide)
    | some id => exact hinner id (d + 1) l
  have hparameters : Erasing (procedureParameters inner d l ids)
      (procedureParameters inner' d l ids) := by
    cases ids with
    | nil => exact .text (by decide)
    | cons first rest => exact erasing_parameters hinner (first :: rest) d l
  exact hreturned.bind ((Erasing.text (by simp [hname])).bind
    (hparameters.bind (.text (by decide))))

end Printer

section Tags

variable (h : tree.Commentable)
include h

theorem erases_mask (wide : Bool) (bit : Nat) (hnode : tree.node id = .ok node) :
    let mask := "#define " ++ node.name ++ " (" ++ unit wide ++ "<<" ++ toString bit ++ ")\n"
    Erases mask.toList mask.toList := by
  have hbit : '/' ∉ Nat.toDigits 10 bit := not_mem_toDigits (by decide) bit
  have hunit : '/' ∉ (unit wide).toList := by cases wide <;> decide
  by_cases hname : '/' ∈ node.name.toList
  · have hlone := @Erases.lone "#define ".toList
      ('(' :: ((unit wide).toList ++ '<' :: '<' :: (Nat.toDigits 10 bit ++ [')', '\n'])))
      (by decide) (by simp [hbit, hunit])
    rw [(h.slash id node hnode hname).1]
    simpa using hlone
  · exact .of_noSlash (by simp [hname, hbit, hunit])

variable (hindent : ∀ c ∈ options.indent.toList, c = ' ' ∨ c = '\t')
  (htag : ∀ id d l, Triple OneLine (tag tree inner id d l) OneLine)
include hindent htag

theorem erasing_flags {name : Option String} (hname : ∀ s ∈ name, '/' ∉ s.toList)
    (bits : List NodeId) (d l : Nat) :
    Erasing (flags tree options inner name bits d l)
      (flags tree (options.set .withoutTagComments) inner' name bits d l) := by
  have hmasks (wide : Bool) (bit : Nat) (ids : List NodeId) (d : Nat) :
      Erasing (masks tree options inner wide d l bit ids)
        (masks tree (options.set .withoutTagComments) inner' wide d l bit ids) := by
    induction ids generalizing bit with
    | nil => exact .done
    | cons id rest ih =>
      refine .orFault fun flag hflag => (erasing_tagComment hindent htag).bind ?_
      exact (Erasing.text_of_erases (erases_mask h wide bit hflag)).bind (ih (bit + 1))
  apply (hmasks (options.isWide bits.length) 0 bits (d + 1)).bind
  cases name with
  | none => exact .done
  | some name =>
    have hstorage : '/' ∉ (storage (options.isWide bits.length)).toList := by
      cases options.isWide bits.length <;> decide
    exact .text (by simp [hstorage, hname name rfl])

theorem erasing_nodeWith (hinner : ∀ id d l, Erasing (inner id d l) (inner' id d l)) (id : NodeId)
    (d l : Nat) :
    Erasing (nodeWith tree options inner id d l)
      (nodeWith tree (options.set .withoutTagComments) inner' id d l) := by
  refine .orFault fun node hnode => (erasing_tagComment hindent htag).bind ?_
  have hblank : '/' ∉ options.indent.toList := by
    intro hc
    rcases hindent _ hc with h | h <;> cases h
  have hname (hp : ∀ left right, node.payload ≠ .binary .div left right) :
      '/' ∉ node.name.toList := by
    intro hslash
    obtain ⟨-, left, right, hdiv⟩ := h.slash id node hnode hslash
    exact hp left right hdiv
  have htext (hp : ∀ left right, node.payload ≠ .binary .div left right) :
      ∀ s ∈ node.text, '/' ∉ s.toList := by
    intro s hs
    exact Node.name_of_mem_text hs ▸ hname hp
  cases hp : node.payload with
  | identifier | numericConstant | stringConstant | charConstant =>
    exact .text (hname (by simp [hp]))
  | unary op operand =>
    have hop : '/' ∉ ("(" ++ op.spelling).toList := by
      simpa using fun hc => absurd (op.spelling_subset hc) (by decide)
    exact (Erasing.text hop).bind ((hinner operand (d + 1) l).bind (.text (by decide)))
  | binary op left right =>
    have hop : Erases (" " ++ op.spelling ++ " ").toList (" " ++ op.spelling ++ " ").toList := by
      cases op with
      | div => exact @Erases.lone [' '] [] (by decide) (by decide)
      | _ => exact .of_noSlash (by decide)
    exact (Erasing.text (by decide)).bind ((hinner left d l).bind
      ((Erasing.text_of_erases hop).bind ((hinner right (d + 1) l).bind (.text (by decide)))))
  | struct ids | union ids | enumeration ids =>
    exact erasing_braced hinner hblank (by decide) (htext (by simp [hp])) (by decide) ids d l
  | flags bits => exact erasing_flags h hindent htag (htext (by simp [hp])) bits d l
  | declaration type initial =>
    exact erasing_declaration hinner (hname (by simp [hp])) id initial d l
  | typeUsage usage => exact erasing_typeUsage hinner (hname (by simp [hp])) usage d l
  | tag ids =>
    refine erasing_tag hinner (fun node' hnode' => ?_) d l
    obtain rfl := Except.ok.inj (hnode.symm.trans hnode')
    exact hname (by simp [hp])
  | constant expression =>
    exact (Erasing.text (by simp [hname (by simp [hp])])).bind
      ((hinner expression (d + 1) l).bind (.text (by decide)))
  | procedure returnType ids =>
    exact erasing_procedure hinner (hname (by simp [hp])) returnType ids d l

end Tags

/-- Tag comments leave everything else in a header as it is. -/
theorem emitText_uncommented {follow : Bool} {s : String} (h : tree.Commentable)
    (hindent : ∀ c ∈ options.indent.toList, c = ' ' ∨ c = '\t')
    (hs : emitText tree options id follow = .ok s) :
    ∃ t, emitText tree (options.set .withoutTagComments) id follow = .ok t ∧
      unspaced (uncommented false s.toList) = unspaced t.toList := by
  have hnode (fuel : Nat) (id : NodeId) (d l : Nat) : Erasing (nodeWithin tree options fuel id d l)
      (nodeWithin tree (options.set .withoutTagComments) fuel id d l) := by
    induction fuel generalizing id d l with
    | zero => exact .fault .endless
    | succ fuel ih => exact erasing_nodeWith h hindent (oneLine_tag h fuel) ih id d l
  have hrender : Erasing (render tree options none id follow)
      (render tree (options.set .withoutTagComments) none id follow) := by
    unfold render renderWithin
    split
    · exact .chainWithin (fun id => hnode _ id 0 0) _ id
    · exact hnode _ id 0 0
  obtain ⟨t, ht, he⟩ := hrender (Prints.of_toText_eq_ok hs)
  refine ⟨String.ofList t, ht.toText, ?_⟩
  rw [he.same, String.toList_ofList]

def labelled : Tree where
  nodes := #[⟨.tag [1], some "unit", none, []⟩, ⟨.binary .div 2 3, some "/", none, []⟩,
    ⟨.numericConstant, some "1", none, []⟩, ⟨.identifier none, some "N", none, []⟩,
    ⟨.binary .div 5 3, some "/", none, []⟩, ⟨.numericConstant, some "4", none, [0]⟩,
    ⟨.typeUsage ⟨0, [4], none, none⟩, some "int", none, []⟩,
    ⟨.declaration 6 none, some "x", none, [0]⟩, ⟨.struct [7], some "S", none, [0]⟩]

theorem labelled_commentable : labelled.Commentable := by
  constructor
  · intro id node hnode
    have hall : ∀ node ∈ labelled.nodes, '\n' ∉ node.name.toList := by decide
    exact hall node (Tree.mem_nodes hnode)
  · intro id node hnode hslash
    have hall : ∀ node ∈ labelled.nodes, '/' ∈ node.name.toList → node.name = "/" ∧
        (node.payload = .binary .div 2 3 ∨ node.payload = .binary .div 5 3) := by decide
    obtain ⟨hname, hp | hp⟩ := hall node (Tree.mem_nodes hnode) hslash
    · exact ⟨hname, 2, 3, hp⟩
    · exact ⟨hname, 5, 3, hp⟩
  · intro id node ids hnode hp p hmem
    have hall : ∀ node ∈ labelled.nodes, node.type = .tag → ∀ p ∈ node.payload.children, p = 1 := by
      decide
    obtain rfl : p = 1 :=
      hall node (Tree.mem_nodes hnode) (by rw [Node.type, hp]; rfl) p (by simpa [hp, Payload.children])
    exact .of_closed [1, 2, 3] (by decide) (by decide)

def labelledText : String :=
  "// unit((1 / N))\ntypedef struct S S;\nstruct S\n\x7b\n    // unit((1 / N))\n" ++
    "    int x[(// unit((1 / N))\n    4 / N)];\n\x7d;\n\n"

theorem emitText_uncommented_labelled :
    labelled.Commentable ∧ emitText labelled {} 8 false = .ok labelledText ∧
    unspaced (uncommented false labelledText.toList) =
      "typedefstructSS;structS\x7bintx[(4/N)];\x7d;".toList ∧
    ∃ t, emitText labelled (({} : Options).set .withoutTagComments) 8 false = .ok t ∧
      unspaced (uncommented false labelledText.toList) = unspaced t.toList := by
  have htext : emitText labelled {} 8 false = .ok labelledText := by rfl
  exact ⟨labelled_commentable, htext, by decide +kernel,
    emitText_uncommented labelled_commentable (by simp) htext⟩

end Header

end DeclTree
