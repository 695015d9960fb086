import DeclTree.Proofs.Header.Schema
import DeclTree.Proofs.Header.Triple

namespace DeclTree

namespace Tree

def Is (tree : Tree) (type : NodeType) (id : NodeId) : Prop :=
  ∀ node, tree.node id = .ok node → node.type = type

theorem Is.of_ok {tree : Tree} {type : NodeType} {id : NodeId} {node : Node}
    (h : tree.node id = .ok node) (htype : node.type = type) : tree.Is type id := by
  intro node' h'
  rw [Except.ok.inj (h'.symm.trans h), htype]

abbrev Computes (tree : Tree) (id : NodeId) : Prop := tree.Below (fun node => node.isExpression) id

def Slots (tree : Tree) : Payload → Prop
  | .struct ids | .union ids => ∀ id ∈ ids, tree.Is .declaration id
  | .enumeration ids | .flags ids => ∀ id ∈ ids, tree.Is .identifier id
  | .declaration type initializer => tree.Is .typeUsage type ∧ ∀ id ∈ initializer, tree.Computes id
  | .typeUsage usage => (∀ id ∈ usage.arraySizes, tree.Computes id) ∧
    ∀ id ∈ usage.inlineAggregate, tree.Is .structDeclaration id ∨ tree.Is .unionDeclaration id
  | .tag ids => ∀ id ∈ ids, tree.Computes id
  | .constant expression => tree.Computes expression
  | .procedure returnType ids => (∀ id ∈ returnType, tree.Is .typeUsage id) ∧
    ∀ id ∈ ids, tree.Is .declaration id
  | .identifier _ | .numericConstant | .stringConstant | .charConstant => True
  | .unary .. | .binary .. => True

def Shaped (tree : Tree) : Prop :=
  ∀ id node, tree.node id = .ok node → tree.Slots node.payload ∧ ∀ tag ∈ node.tags, tree.Is .tag tag

end Tree

namespace Header

open Rendering

def Depth (chars : List Char) (o : Nat) : Prop := chars.count '{' = chars.count '}' + o

/-- A line in front of which `o` braces are open starts with as many margins, or it starts with one
less and closes a brace; no other brace stands on it then. -/
def Leads (indent : List Char) (o : Nat) (line : List Char) : Prop :=
  margin indent o <+: line ∨
    ∃ k rest, o = k + 1 ∧ line = margin indent k ++ '}' :: rest ∧ '{' ∉ rest ∧ '}' ∉ rest

def Flat (chars : List Char) : Prop := ∀ c ∈ chars, c ≠ '\n' ∧ c ≠ '{' ∧ c ≠ '}'

instance : DecidablePred Flat := fun chars =>
  List.decidableBAll (fun c => c ≠ '\n' ∧ c ≠ '{' ∧ c ≠ '}') chars

/-- Whole lines, each indented as deep as the braces in front of it. -/
inductive Laid (indent : List Char) : List Char → Prop
  | nil : Laid indent []
  | line {before line : List Char} {o : Nat} : Laid indent before → Depth before o →
    Leads indent o line → '\n' ∉ line → Laid indent (before ++ line ++ ['\n'])

structure Fresh (indent : List Char) (o : Nat) (chars : List Char) : Prop where
  laid : Laid indent chars
  depth : Depth chars o

structure InLine (indent : List Char) (o : Nat) (chars : List Char) : Prop where
  lines : ∃ before line k, Laid indent before ∧ Depth before k ∧ Leads indent k line ∧
    '\n' ∉ line ∧ chars = before ++ line
  depth : Depth chars o

variable {indent chars s : List Char} {o : Nat}

theorem Depth.append (h : Depth chars o) (hopen : '{' ∉ s) (hclose : '}' ∉ s) :
    Depth (chars ++ s) o := by
  rw [Depth, List.count_append, List.count_append, List.count_eq_zero_of_not_mem hopen,
    List.count_eq_zero_of_not_mem hclose]
  exact h

theorem Depth.opened (h : Depth chars o) : Depth (chars ++ ['{']) (o + 1) := by
  simp [Depth, List.count_append] at h ⊢
  omega

theorem Depth.closed (h : Depth chars (o + 1)) : Depth (chars ++ ['}']) o := by
  simp [Depth, List.count_append] at h ⊢
  omega

@[simp] theorem flat_nil : Flat [] := List.forall_mem_nil _

@[simp] theorem flat_cons {c : Char} :
    Flat (c :: s) ↔ (c ≠ '\n' ∧ c ≠ '{' ∧ c ≠ '}') ∧ Flat s := List.forall_mem_cons

@[simp] theorem flat_append {t : List Char} : Flat (s ++ t) ↔ Flat s ∧ Flat t :=
  List.forall_mem_append

namespace Flat

theorem newline (h : Flat s) : '\n' ∉ s := fun hc => (h _ hc).1 rfl

theorem opening (h : Flat s) : '{' ∉ s := fun hc => (h _ hc).2.1 rfl

theorem closing (h : Flat s) : '}' ∉ s := fun hc => (h _ hc).2.2 rfl

theorem margin (h : Flat indent) (l : Nat) : Flat (margin indent l) := by
  induction l with
  | zero => exact flat_nil
  | succ l ih => exact flat_append.mpr ⟨h, ih⟩

end Flat

theorem Leads.append (h : Leads indent o chars) (hs : Flat s) : Leads indent o (chars ++ s) := by
  obtain h | ⟨k, rest, rfl, rfl, hopen, hclose⟩ := h
  · exact .inl (h.trans (List.prefix_append chars s))
  · refine .inr ⟨k, rest ++ s, rfl, by simp, ?_, ?_⟩ <;> rw [List.mem_append, not_or]
    exacts [⟨hopen, hs.opening⟩, ⟨hclose, hs.closing⟩]

namespace InLine

theorem nil (indent : List Char) : InLine indent 0 [] :=
  ⟨⟨[], [], 0, .nil, rfl, .inl (List.prefix_refl []), List.not_mem_nil, rfl⟩, rfl⟩

theorem flat (h : InLine indent o chars) (hs : Flat s) : InLine indent o (chars ++ s) := by
  obtain ⟨⟨before, line, k, hlaid, hk, hleads, hline, rfl⟩, hdepth⟩ := h
  refine ⟨⟨before, line ++ s, k, hlaid, hk, hleads.append hs, ?_, List.append_assoc ..⟩,
    hdepth.append hs.opening hs.closing⟩
  rw [List.mem_append, not_or]
  exact ⟨hline, hs.newline⟩

theorem newline (h : InLine indent o chars) : Fresh indent o (chars ++ ['\n']) := by
  obtain ⟨⟨before, line, k, hlaid, hk, hleads, hline, rfl⟩, hdepth⟩ := h
  exact ⟨.line hlaid hk hleads hline, hdepth.append (by decide) (by decide)⟩

end InLine

namespace Fresh

theorem indented (h : Fresh indent o chars) (hindent : Flat indent) :
    InLine indent o (chars ++ margin indent o) := by
  have hmargin := hindent.margin o
  exact ⟨⟨chars, _, o, h.laid, h.depth, .inl (List.prefix_refl _), hmargin.newline, rfl⟩,
    h.depth.append hmargin.opening hmargin.closing⟩

theorem opened (h : Fresh indent o chars) (hindent : Flat indent) :
    Fresh indent (o + 1) (chars ++ margin indent o ++ ['{', '\n']) := by
  have hmargin := hindent.margin o
  have hlaid := h.laid.line h.depth (.inl (List.prefix_append (margin indent o) ['{']))
    (by simp [hmargin.newline])
  have hdepth := h.depth.append hmargin.opening hmargin.closing
  have hdepth := hdepth.opened.append (s := ['\n']) (by decide) (by decide)
  exact ⟨by simpa using hlaid, by simpa using hdepth⟩

theorem closed (h : Fresh indent (o + 1) chars) (hindent : Flat indent) :
    InLine indent o (chars ++ margin indent o ++ ['}']) := by
  have hmargin := hindent.margin o
  refine ⟨⟨chars, _, o + 1, h.laid, h.depth, .inr ⟨o, [], rfl, rfl, ?_, ?_⟩, ?_,
    List.append_assoc ..⟩, (h.depth.append hmargin.opening hmargin.closing).closed⟩
  · exact List.not_mem_nil
  · exact List.not_mem_nil
  · simp [hmargin.newline]

theorem inLine (h : Fresh indent 0 chars) : InLine indent 0 chars :=
  ⟨⟨chars, [], 0, h.laid, h.depth, .inl (List.prefix_refl []), List.not_mem_nil,
    (List.append_nil chars).symm⟩, h.depth⟩

end Fresh

theorem InLine.broken (h : InLine indent 0 chars) (hopen : '{' ∉ s) (hclose : '}' ∉ s) :
    InLine indent 0 (chars ++ s) := by
  induction s generalizing chars with
  | nil => rwa [List.append_nil]
  | cons c s ih =>
    rw [List.mem_cons, not_or] at hopen hclose
    have hc : InLine indent 0 (chars ++ [c]) := by
      by_cases hnewline : c = '\n'
      · exact hnewline ▸ h.newline.inLine
      · exact h.flat (by simp [hnewline, Ne.symm hopen.1, Ne.symm hclose.1])
    simpa using ih hc hopen.2 hclose.2

theorem append_inj_lines {before before' line line' : List Char}
    (h : before ++ line = before' ++ line') (hbefore : ∀ c ∈ before.getLast?, c = '\n')
    (hbefore' : ∀ c ∈ before'.getLast?, c = '\n') (hline : '\n' ∉ line) (hline' : '\n' ∉ line') :
    before = before' ∧ line = line' := by
  -- a surplus of one side would end in a newline within the line of the other
  have hnil {before c line : List Char} (hlast : ∀ x ∈ (before ++ c).getLast?, x = '\n')
      (hline : '\n' ∉ c ++ line) : c = [] := by
    by_contra hc
    obtain ⟨c, x, rfl⟩ := List.eq_nil_or_concat'  c |>.resolve_left hc
    obtain rfl := hlast x (by simp)
    simp at hline
  obtain ⟨c, rfl, rfl⟩ | ⟨c, rfl, rfl⟩ := List.append_eq_append_iff.mp h
  · obtain rfl := hnil hbefore' hline
    simp
  · obtain rfl := hnil hbefore hline'
    simp

theorem Laid.getLast? (h : Laid indent chars) : ∀ c ∈ chars.getLast?, c = '\n' := by
  cases h with
  | nil => nofun
  | line => simp

theorem append_of_append_newline {a last p rest : List Char} (hlast : '\n' ∉ last)
    (h : a ++ ['\n'] ++ last = p ++ '\n' :: rest) :
    ∃ t, a = p ++ t ∧ '\n' :: rest = t ++ '\n' :: last := by
  obtain ⟨c, -, rfl⟩ | ⟨c, hc, hrest⟩ := List.append_eq_append_iff.mp h
  · simp at hlast
  · obtain rfl | ⟨t, x, rfl⟩ := List.eq_nil_or_concat' c
    · rw [List.nil_append] at hrest
      simp [← hrest] at hlast
    · rw [← List.append_assoc] at hc
      obtain ⟨rfl, hx⟩ := List.append_inj' hc rfl
      obtain rfl := List.singleton_inj.mp hx
      exact ⟨t, rfl, by simpa using hrest⟩

theorem InLine.leads (h : InLine indent o chars) {before line after : List Char}
    (hchars : chars = before ++ (line ++ after)) (hbefore : ∀ c ∈ before.getLast?, c = '\n')
    (hline : '\n' ∉ line) (hafter : ∀ c ∈ after.head?, c = '\n') :
    ∃ k, Depth before k ∧ Leads indent k line := by
  obtain ⟨⟨whole, last, k, hlaid, hk, hleads, hlast, rfl⟩, -⟩ := h
  rw [← List.append_assoc] at hchars
  -- on the lines from the last one back: a line with a break behind it is not the last
  induction hlaid generalizing last k after with
  | nil =>
    cases after with
    | nil =>
      rw [List.append_nil] at hchars
      obtain ⟨rfl, rfl⟩ := append_inj_lines hchars nofun hbefore hlast hline
      exact ⟨k, hk, hleads⟩
    | cons c after =>
      obtain rfl := hafter c rfl
      rw [List.nil_append] at hchars
      simp [hchars] at hlast
  | @line b l k' hlaid hk' hleads' hl ih =>
    cases after with
    | nil =>
      rw [List.append_nil] at hchars
      have hwhole := (Laid.line hlaid hk' hleads' hl).getLast?
      obtain ⟨rfl, rfl⟩ := append_inj_lines hchars hwhole hbefore hlast hline
      exact ⟨k, hk, hleads⟩
    | cons c after =>
      obtain rfl := hafter c rfl
      obtain ⟨t, ht, hafter'⟩ := append_of_append_newline hlast hchars
      refine ih ?_ l k' hk' hleads' hl ht
      cases t with
      | nil => nofun
      | cons x t =>
        obtain ⟨rfl, -⟩ := List.cons.inj hafter'
        rintro _ ⟨⟩
        rfl

theorem Prints.eq_margin {options : Options} {l : Nat} (h : Prints (indentation options l) chars) :
    chars = margin options.indent.toList l :=
  h.2.symm.trans (Prints.repeated options.indent l).2

namespace Triple

variable {t : String}

theorem flat (ht : Flat t.toList) : Triple (InLine indent o) (Rendering.text t) (InLine indent o) :=
  .text fun _ h => h.flat ht

theorem line {a : List Char} (ht : t.toList = a ++ ['\n']) (ha : Flat a) :
    Triple (InLine indent o) (Rendering.text t) (Fresh indent o) := by
  refine .text fun before h => ?_
  rw [ht, ← List.append_assoc]
  exact (h.flat ha).newline

theorem broken (hopen : '{' ∉ t.toList) (hclose : '}' ∉ t.toList) :
    Triple (InLine indent 0) (Rendering.text t) (InLine indent 0) :=
  .text fun _ h => h.broken hopen hclose

variable {options : Options}

theorem margined {P Q : List Char → Prop} {r : Rendering Unit} {l : Nat}
    (ht : ∀ before, Fresh options.indent.toList o before →
      P (before ++ margin options.indent.toList l ++ t.toList)) (h : Triple P r Q) :
    Triple (Fresh options.indent.toList o)
      (do indentation options l; Rendering.text t; r) Q := by
  intro before chars hfresh hprints
  obtain ⟨a, _, ha, htail, rfl⟩ := Prints.bind_iff.mp hprints
  obtain ⟨b, c, hb, hc, rfl⟩ := Prints.bind_iff.mp htail
  rw [Prints.eq_margin ha, Prints.text_iff.mp hb, ← List.append_assoc, ← List.append_assoc]
  exact h (ht before hfresh) hc

theorem indented (hindent : Flat options.indent.toList) (l : Nat) :
    Triple (Fresh options.indent.toList l) (indentation options l)
      (InLine options.indent.toList l) := by
  intro before chars h hprints
  rw [Prints.eq_margin hprints]
  exact h.indented hindent

end Triple

def nestedTypes : List NodeType :=
  [.declaration, .typeUsage, .structDeclaration, .unionDeclaration]

def Nested (tree : Tree) (id : NodeId) : Prop :=
  tree.Computes id ∨ ∃ type ∈ nestedTypes, tree.Is type id

section Printer

variable {tree : Tree} {options : Options} {inner : Renderer} {id : NodeId} {node : Node}
  {d l : Nat}

theorem Nested.kind (h : Nested tree id) (hnode : tree.node id = .ok node) :
    node.isExpression ∨ node.type ∈ nestedTypes := by
  obtain h | ⟨type, hmem, h⟩ := h
  · exact .inl (h.self hnode)
  · exact .inr (h node hnode ▸ hmem)

theorem Nested.operand {c : NodeId} (h : Nested tree id) (hnode : tree.node id = .ok node)
    (hexpression : node.isExpression) (hc : c ∈ node.payload.children) : Nested tree c := by
  obtain h | ⟨type, hmem, h⟩ := h
  · exact .inl (h.child hnode hc)
  · simp only [nestedTypes, List.mem_cons, List.not_mem_nil, or_false] at hmem
    rcases hmem with rfl | rfl | rfl | rfl <;> simp [Node.isExpression, h node hnode] at hexpression

theorem nested_of_identifier (h : tree.Is .identifier id) : Nested tree id := by
  refine .inl (Tree.Below.of_closed [id] (by simp) fun c hc node hnode => ?_)
  obtain rfl := List.mem_singleton.mp hc
  have hn := h node (Tree.node_eq_ok_iff.mpr hnode)
  cases hp : node.payload <;> simp [Node.type, Payload.type, hp] at hn
  simp [Node.isExpression, Node.type, Payload.type, Payload.children, hp]

theorem flat_text (htext : Flat node.name.toList) : ∀ s ∈ node.text, Flat s.toList := by
  intro s hs
  exact Node.name_of_mem_text hs ▸ htext

abbrev CarriesOn (indent : List Char) (l : Nat) (r : Rendering Unit) : Prop :=
  Triple (InLine indent l) r (InLine indent l)

/-- Wherever a node may stand, `inner` carries a line on. At level zero any node may stand: no line
needs a margin there, and so the node may break it. -/
def Carries (tree : Tree) (indent : List Char) (inner : Renderer) : Prop :=
  ∀ id d l, (d = 0 → l = 0) → (l = 0 ∨ Nested tree id) →
    CarriesOn indent l (inner id d l)

theorem Carries.below {indent : List Char} (h : Carries tree indent inner)
    (hid : l = 0 ∨ Nested tree id) (d : Nat) : CarriesOn indent l (inner id (d + 1) l) :=
  h id (d + 1) l (fun hd => absurd hd (Nat.succ_ne_zero d)) hid

variable (hinner : Carries tree options.indent.toList inner)
include hinner

theorem inLine_parameters {ids : List NodeId} (h : ∀ id ∈ ids, l = 0 ∨ Nested tree id) :
    CarriesOn options.indent.toList l (parameters inner ids d l) :=
  .separated (.flat (by decide)) fun id hid => hinner.below (h id hid) d

theorem inLine_braced (hindent : Flat options.indent.toList) {keyword ending : String}
    {name : Option String} {ids : List NodeId} {e : Char} (hkeyword : Flat keyword.toList)
    (hname : ∀ s ∈ name, Flat s.toList) (hending : ending.toList = [e, '\n']) (he : Flat [e])
    (hd : d = 0 → l = 0) (hids : ∀ id ∈ ids, Nested tree id) :
    CarriesOn options.indent.toList l (braced options inner keyword name ids ending d l) := by
  have halias : CarriesOn options.indent.toList l (atTop d (typedefLine keyword name)) := by
    refine .atTop fun hzero => ?_
    obtain rfl := hd hzero
    cases name with
    | none => exact .done
    | some name =>
      have hname := hname name rfl
      exact .broken (by simp [hkeyword.opening, hname.opening])
        (by simp [hkeyword.closing, hname.closing])
  have hheading : Triple (InLine options.indent.toList l) (heading keyword name)
      (Fresh options.indent.toList l) := by
    cases name with
    | none => exact .line (String.toList_append ..) hkeyword
    | some name =>
      refine .line (a := keyword.toList ++ ' ' :: name.toList) (by simp) ?_
      simp [hkeyword, hname name rfl]
  have hitems : Triple (Fresh options.indent.toList (l + 1))
      (items options inner ending ids (d + 1) (l + 1)) (Fresh options.indent.toList (l + 1)) := by
    refine .forM fun id hid => (Triple.indented hindent (l + 1)).bind ?_
    exact (hinner.below (.inr (hids id hid)) d).bind (.line (a := [e]) hending he)
  refine halias.bind (hheading.bind (.margined (fun _ h => h.opened hindent) (hitems.bind ?_)))
  refine .margined (fun _ h => h.closed hindent) (.atTop fun hzero => ?_)
  obtain rfl := hd hzero
  exact .broken (by decide) (by decide)

theorem inLine_typeUsage {name : String} (hname : Flat name.toList) {usage : TypeUsage}
    (hslots : tree.Slots (.typeUsage usage)) (d l : Nat) :
    CarriesOn options.indent.toList l (typeUsage inner name usage d l) := by
  have hbase : CarriesOn options.indent.toList l (base inner name d l usage.inlineAggregate) := by
    cases haggregate : usage.inlineAggregate with
    | none => exact .flat hname
    | some id =>
      refine hinner.below (.inr (.inr ?_)) d
      obtain h | h := hslots.2 id haggregate
      · exact ⟨.structDeclaration, by decide, h⟩
      · exact ⟨.unionDeclaration, by decide, h⟩
  exact hbase.bind ((Triple.flat (by decide)).bind (.repeated (.flat (by decide)) _))

theorem inLine_procedure {name : String} (hname : Flat name.toList) (returnType : Option NodeId)
    (ids : List NodeId) (d : Nat) :
    CarriesOn options.indent.toList 0 (procedure inner name returnType ids d 0) := by
  have hreturned : CarriesOn options.indent.toList 0 (returned inner d 0 returnType) := by
    cases returnType with
    | none => exact .flat (by decide)
    | some id => exact hinner.below (.inl rfl) d
  have hparameters : CarriesOn options.indent.toList 0 (procedureParameters inner d 0 ids) := by
    cases ids with
    | nil => exact .flat (by decide)
    | cons first rest => exact inLine_parameters hinner fun _ _ => .inl rfl
  have hopen : Flat (name ++ "(").toList := by simp [hname]
  exact hreturned.bind ((Triple.flat hopen).bind
    (hparameters.bind (.broken (by decide) (by decide))))

variable (hshaped : tree.Shaped)
include hshaped

theorem inLine_declaration {name : String} (hname : Flat name.toList) (id : NodeId)
    (initial : Option NodeId) (hd : d = 0 → l = 0) :
    CarriesOn options.indent.toList l (declaration tree inner id name initial d l) := by
  refine .orFault fun pair hslot => ?_
  obtain ⟨type, usage⟩ := pair
  obtain ⟨-, -, slot, -, -, hnode, husage⟩ := Tree.typeUsageOf_eq_ok hslot
  have hslots := (hshaped type slot hnode).1
  rw [husage] at hslots
  have htype : Nested tree type := by
    refine .inr ⟨.typeUsage, by decide, .of_ok hnode ?_⟩
    rw [Node.type, husage, Payload.type]
  have hsizes :
      CarriesOn options.indent.toList l (usage.arraySizes.forM (dimension inner d l)) := by
    refine .forM fun size hmem => (Triple.flat (by decide)).bind ?_
    exact (hinner size d l hd (.inr (.inl (hslots.1 size hmem)))).bind (.flat (by decide))
  refine (hinner type d l hd (.inr htype)).bind ((Triple.flat hname).bind (hsizes.bind ?_))
  refine .atTop fun hzero => ?_
  obtain rfl := hd hzero
  refine .bind (Q := InLine options.indent.toList 0) ?_ (.broken (by decide) (by decide))
  cases initial with
  | none => exact .done
  | some value => exact (Triple.flat (by decide)).bind (hinner.below (.inl rfl) d)

variable (htext : ∀ id node, tree.node id = .ok node → Flat node.name.toList)
include htext

theorem inLine_tag (id : NodeId) (d l : Nat) :
    CarriesOn options.indent.toList l (tag tree inner id d l) := by
  refine .tag (fun node hnode => .flat (htext id node hnode)) (.flat (by decide))
    (.flat (by decide)) (.flat (by decide)) fun node ids hnode hp p hmem => ?_
  have hslots := (hshaped id node hnode).1
  rw [hp] at hslots
  exact hinner.below (.inr (.inl (hslots p hmem))) d

variable (hindent : Flat options.indent.toList)
include hindent

theorem inLine_tagComment (node : Node) (d l : Nat) :
    CarriesOn options.indent.toList l (tagComment tree options inner node d l) := by
  unfold tagComment
  split
  · have htags : CarriesOn options.indent.toList l
        (separated " " (tag tree inner · d l) node.tags) :=
      .separated (.flat (by decide)) fun id _ => inLine_tag hinner hshaped htext id d l
    refine (Triple.flat (by decide)).bind (htags.bind ?_)
    exact (Triple.line (a := []) rfl flat_nil).bind (.indented hindent l)
  · exact .done

theorem inLine_flags {name : Option String} (hname : ∀ s ∈ name, Flat s.toList)
    (bits : List NodeId) (d : Nat) :
    CarriesOn options.indent.toList 0 (flags tree options inner name bits d 0) := by
  have hmasks (wide : Bool) (bit : Nat) (ids : List NodeId) (d : Nat) :
      CarriesOn options.indent.toList 0 (masks tree options inner wide d 0 bit ids) := by
    induction ids generalizing bit with
    | nil => exact .done
    | cons id rest ih =>
      refine .orFault fun flag hflag => ?_
      have hcomment := inLine_tagComment hinner hshaped htext hindent flag d 0
      refine hcomment.bind (.bind ?_ (ih (bit + 1)))
      have hflat := htext id flag hflag
      have hopen : '{' ∉ Nat.toDigits 10 bit := not_mem_toDigits (by decide) bit
      have hclose : '}' ∉ Nat.toDigits 10 bit := not_mem_toDigits (by decide) bit
      have hunit : Flat (unit wide).toList := by cases wide <;> decide
      exact .broken (by simp [hflat.opening, hunit.opening, hopen])
        (by simp [hflat.closing, hunit.closing, hclose])
  refine (hmasks _ 0 bits (d + 1)).bind ?_
  cases name with
  | none => exact .done
  | some name =>
    have hname := hname name rfl
    have hstorage : Flat (storage (options.isWide bits.length)).toList := by
      cases options.isWide bits.length <;> decide
    exact .broken (by simp [hname.opening, hstorage.opening])
      (by simp [hname.closing, hstorage.closing])

theorem carries_nodeWith : Carries tree options.indent.toList (nodeWith tree options inner) := by
  intro id d l hd hid
  refine .orFault fun node hnode => ?_
  refine (inLine_tagComment hinner hshaped htext hindent node d l).bind ?_
  have hname := htext id node hnode
  have hslots := (hshaped id node hnode).1
  have hoperand (h : node.isExpression) (c : NodeId) (hc : c ∈ node.payload.children) :
      l = 0 ∨ Nested tree c := hid.imp_right fun hnested => hnested.operand hnode h hc
  have hzero (h : ¬ (node.isExpression ∨ node.type ∈ nestedTypes)) : l = 0 :=
    hid.resolve_right fun hnested => h (hnested.kind hnode)
  simp only [Node.isExpression, Node.type] at hoperand hzero
  cases hp : node.payload <;> rw [hp] at hslots hoperand hzero
  case identifier | numericConstant | stringConstant | charConstant => exact .flat hname
  case unary op operand =>
    have hop : Flat op.spelling.toList := by cases op <;> decide
    have hvalue := hinner.below (hoperand rfl operand (by simp [Payload.children])) d
    exact (Triple.flat (by simp [hop])).bind (hvalue.bind (.flat (by decide)))
  case binary op left right =>
    have hop : Flat op.spelling.toList := by cases op <;> decide
    have hleft := hinner left d l hd (hoperand rfl left (by simp [Payload.children]))
    have hright := hinner.below (hoperand rfl right (by simp [Payload.children])) d
    exact (Triple.flat (by decide)).bind (hleft.bind
      ((Triple.flat (by simp [hop])).bind (hright.bind (.flat (by decide)))))
  case struct ids | union ids =>
    exact inLine_braced hinner hindent (by decide) (flat_text hname) rfl (by decide) hd
      fun id hmem => .inr ⟨.declaration, by decide, hslots id hmem⟩
  case enumeration ids =>
    exact inLine_braced hinner hindent (by decide) (flat_text hname) rfl (by decide) hd
      fun id hmem => nested_of_identifier (hslots id hmem)
  case flags bits =>
    obtain rfl := hzero (by simp [Payload.type, nestedTypes])
    exact inLine_flags hinner hshaped htext hindent (flat_text hname) bits d
  case declaration type initial => exact inLine_declaration hinner hshaped hname id initial hd
  case typeUsage usage => exact inLine_typeUsage hinner hname hslots d l
  case tag ids => exact inLine_tag hinner hshaped htext id d l
  case constant expression =>
    obtain rfl := hzero (by simp [Payload.type, nestedTypes])
    have hvalue : CarriesOn options.indent.toList 0 (inner expression (d + 1) 0) :=
      hinner.below (.inl rfl) d
    exact (Triple.flat (by simp [hname])).bind (hvalue.bind (.broken (by decide) (by decide)))
  case procedure returnType ids =>
    obtain rfl := hzero (by simp [Payload.type, nestedTypes])
    exact inLine_procedure hinner hname returnType ids d

end Printer

theorem emitText_indented {tree : Tree} {options : Options} {id : NodeId} {follow : Bool}
    {s : String} (hshaped : tree.Shaped)
    (htext : ∀ id node, tree.node id = .ok node → Flat node.name.toList)
    (hindent : Flat options.indent.toList) (hs : emitText tree options id follow = .ok s)
    {before line after : List Char} (hsplit : s.toList = before ++ (line ++ after))
    (hbefore : ∀ c ∈ before.getLast?, c = '\n') (hline : '\n' ∉ line)
    (hafter : ∀ c ∈ after.head?, c = '\n') :
    ∃ o, Depth before o ∧ Leads options.indent.toList o line := by
  have hcarries (fuel : Nat) :
      Carries tree options.indent.toList (nodeWithin tree options fuel) := by
    induction fuel with
    | zero => exact fun _ _ _ _ _ => .fault .endless
    | succ fuel ih => exact carries_nodeWith ih hshaped htext hindent
  have hlines : InLine options.indent.toList 0 s.toList :=
    Triple.emitText (fun id => hcarries _ id 0 0 (fun _ => rfl) (.inl rfl)) (.nil _) hs
  exact hlines.leads hsplit hbefore hline hafter

def nestedTree : Tree where
  nodes := #[⟨.numericConstant, some "4", none, []⟩, ⟨.tag [0], some "max", none, []⟩,
    ⟨.typeUsage {}, some "int", none, []⟩, ⟨.declaration 2 none, some "x", none, [1]⟩,
    ⟨.union [3], none, none, []⟩, ⟨.typeUsage { inlineAggregate := some 4 }, none, none, []⟩,
    ⟨.declaration 5 none, some "u", none, []⟩, ⟨.struct [6], some "S", none, []⟩]

theorem nestedTree_shaped : nestedTree.Shaped := by
  have hsingle {type : NodeType} {c : NodeId} (h : nestedTree.Is type c) :
      ∀ id ∈ [c], nestedTree.Is type id := by simpa using h
  have hmax : nestedTree.Computes 0 := .of_closed [0] (by decide) (by decide)
  intro id node hnode
  have hmem := Tree.mem_nodes hnode
  simp only [nestedTree, List.mem_toArray, List.mem_cons, List.not_mem_nil, or_false] at hmem
  rcases hmem with rfl | rfl | rfl | rfl | rfl | rfl | rfl | rfl
  · exact ⟨trivial, nofun⟩
  · exact ⟨by simpa [Tree.Slots] using hmax, nofun⟩
  · exact ⟨⟨nofun, nofun⟩, nofun⟩
  · exact ⟨⟨.of_ok rfl rfl, nofun⟩, hsingle (.of_ok rfl rfl)⟩
  · exact ⟨hsingle (.of_ok rfl rfl), nofun⟩
  · refine ⟨⟨nofun, fun c hc => ?_⟩, nofun⟩
    cases hc
    exact .inr (.of_ok rfl rfl)
  · exact ⟨⟨.of_ok rfl rfl, nofun⟩, nofun⟩
  · exact ⟨hsingle (.of_ok rfl rfl), nofun⟩

def nestedStart : String :=
  "typedef struct S S;\nstruct S\n\x7b\n    union\n    \x7b\n        // max(4)\n        int x;\n"

theorem emitText_indented_nested :
    nestedTree.Shaped ∧ (∀ node ∈ nestedTree.nodes, Flat node.name.toList) ∧
    emitText nestedTree {} 7 false = .ok (nestedStart ++ "    \x7d u;\n\x7d;\n\n") ∧
    ∃ o, Depth nestedStart.toList o ∧ Leads "    ".toList o "    \x7d u;".toList := by
  have hflat : ∀ node ∈ nestedTree.nodes, Flat node.name.toList := by decide
  have htext : emitText nestedTree {} 7 false = .ok (nestedStart ++ "    \x7d u;\n\x7d;\n\n") := rfl
  refine ⟨nestedTree_shaped, hflat, htext, ?_⟩
  refine emitText_indented nestedTree_shaped ?_ (by decide) htext
    (by simp [nestedStart]; rfl) (by simp [nestedStart]) (by decide) (by simp)
  exact fun id node hnode => hflat node (Tree.mem_nodes hnode)

end Header

end DeclTree
