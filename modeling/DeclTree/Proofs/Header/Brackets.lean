import DeclTree.Proofs.Header.Triple

namespace DeclTree.Header

open Rendering

def brackets : List Char := ['(', ')', '[', ']', '{', '}']

inductive Pair : Char → Char → Prop
  | round : Pair '(' ')'
  | square : Pair '[' ']'
  | curly : Pair '{' '}'

inductive Balanced : List Char → Prop
  | nil : Balanced []
  | plain {c : Char} : c ∉ brackets → Balanced [c]
  | enclosed {opening closing : Char} {inside : List Char} : Pair opening closing →
    Balanced inside → Balanced (opening :: (inside ++ [closing]))
  | append {front back : List Char} : Balanced front → Balanced back → Balanced (front ++ back)

def Awaits : (closings : List Char) → List Char → Prop
  | [], chars => Balanced chars
  | closing :: closings, chars => ∃ before opening inside, Awaits closings before ∧
    Pair opening closing ∧ Balanced inside ∧ chars = before ++ opening :: inside

variable {closings chars s : List Char} {opening closing : Char}

theorem Balanced.of_plain (h : s.all (· ∉ brackets)) : Balanced s := by
  induction s with
  | nil => exact .nil
  | cons c s ih =>
    obtain ⟨hc, hs⟩ := Bool.and_eq_true_iff.mp h
    exact (Balanced.plain (of_decide_eq_true hc)).append (ih hs)

theorem balanced_append {s t : String} (hs : Balanced s.toList) (ht : Balanced t.toList) :
    Balanced (s ++ t).toList := by
  rw [String.toList_append]
  exact hs.append ht

namespace Awaits

theorem append (h : Awaits closings chars) (hs : Balanced s) : Awaits closings (chars ++ s) := by
  cases closings with
  | nil => exact Balanced.append h hs
  | cons closing closings =>
    obtain ⟨before, opening, inside, hbefore, hpair, hinside, rfl⟩ := h
    exact ⟨before, opening, inside ++ s, hbefore, hpair, hinside.append hs, by simp⟩

theorem opened (h : Awaits closings chars) (hpair : Pair opening closing) :
    Awaits (closing :: closings) (chars ++ [opening]) :=
  ⟨chars, opening, [], h, hpair, .nil, rfl⟩

theorem closed (h : Awaits (closing :: closings) chars) : Awaits closings (chars ++ [closing]) := by
  obtain ⟨before, opening, inside, hbefore, hpair, hinside, rfl⟩ := h
  rw [List.append_assoc, List.cons_append]
  exact hbefore.append (.enclosed hpair hinside)

end Awaits

namespace Triple

variable {t : String} {a b : List Char}

theorem balanced (ht : Balanced t.toList) :
    Triple (Awaits closings) (Rendering.text t) (Awaits closings) :=
  .text fun _ h => h.append ht

theorem opened (hpair : Pair opening closing) (ht : t.toList = a ++ opening :: b)
    (ha : Balanced a) (hb : Balanced b) :
    Triple (Awaits closings) (Rendering.text t) (Awaits (closing :: closings)) := by
  refine .text fun before h => ?_
  have hopened := ((h.append ha).opened hpair).append hb
  simpa [ht] using hopened

theorem closed (ht : t.toList = closing :: b) (hb : Balanced b) :
    Triple (Awaits (closing :: closings)) (Rendering.text t) (Awaits closings) := by
  refine .text fun before h => ?_
  simpa [ht] using h.closed.append hb

end Triple

def Nests (r : Rendering Unit) : Prop :=
  ∀ closings, Triple (Awaits closings) r (Awaits closings)

namespace Nests

variable {r s : Rendering Unit} {t : String}

theorem done : Nests (.done ()) := fun _ => .done

theorem text (ht : Balanced t.toList) : Nests (Rendering.text t) := fun _ => .balanced ht

theorem plain (ht : t.toList.all (· ∉ brackets)) : Nests (Rendering.text t) := text (.of_plain ht)

theorem bind (hr : Nests r) (hs : Nests s) : Nests (do r; s) :=
  fun closings => (hr closings).bind (hs closings)

theorem atTop (h : Nests r) (d : Nat) : Nests (atTop d r) :=
  fun closings => .atTop fun _ => h closings

theorem repeated (ht : Balanced t.toList) (n : Nat) : Nests (repeated t n) :=
  fun _ => .repeated (.balanced ht) n

theorem forM {α : Type} {item : α → Rendering Unit} (h : ∀ x, Nests (item x)) (xs : List α) :
    Nests (xs.forM item) :=
  fun closings => .forM fun x _ => h x closings

theorem orFault {α : Type} {x : Except Fault α} {next : α → Rendering Unit}
    (h : ∀ value, x = .ok value → Nests (next value)) : Nests (orFault x >>= next) :=
  fun closings => .orFault fun value hx => h value hx closings

end Nests

section Printer

variable {tree : Tree} {options : Options} {inner : Renderer} {id : NodeId} {node : Node}
  {name : String}

theorem nests_typedefLine {keyword : String} {name : Option String}
    (hkeyword : Balanced keyword.toList) (hname : ∀ s ∈ name, Balanced s.toList) :
    Nests (typedefLine keyword name) := by
  cases name with
  | none => exact .done
  | some name =>
    have hname := hname name rfl
    have hstart : Balanced ("typedef " ++ keyword ++ " ").toList :=
      balanced_append (balanced_append (.of_plain (by decide)) hkeyword) (.of_plain (by decide))
    have htwice : Balanced ("typedef " ++ keyword ++ " " ++ name ++ " " ++ name).toList :=
      balanced_append (balanced_append (balanced_append hstart hname) (.of_plain (by decide))) hname
    exact .text (balanced_append htwice (.of_plain (by decide)))

theorem nests_heading {keyword : String} {name : Option String}
    (hkeyword : Balanced keyword.toList) (hname : ∀ s ∈ name, Balanced s.toList) :
    Nests (heading keyword name) := by
  cases name with
  | none => exact .text (balanced_append hkeyword (.of_plain (by decide)))
  | some name =>
    have hstart : Balanced (keyword ++ " ").toList :=
      balanced_append hkeyword (.of_plain (by decide))
    exact .text (balanced_append (balanced_append hstart (hname name rfl)) (.of_plain (by decide)))

theorem balanced_invalid : Balanced "(invalid)".toList :=
  .enclosed .round (.of_plain (s := "invalid".toList) (by decide))

theorem balanced_unary (op : UnaryOp) : Balanced op.spelling.toList := by
  cases op with
  | invalid => exact balanced_invalid
  | _ => exact .of_plain (by decide)

theorem balanced_binary (op : BinaryOp) : Balanced op.spelling.toList := by
  cases op with
  | invalid => exact balanced_invalid
  | _ => exact .of_plain (by decide)

theorem balanced_define (hname : Balanced name.toList) :
    Balanced ("#define " ++ name ++ " ").toList :=
  balanced_append (balanced_append (.of_plain (by decide)) hname) (.of_plain (by decide))

theorem balanced_toString (n : Nat) : Balanced (toString n).toList := by
  have hdigit : ∀ c ∈ brackets, c.isDigit = false := by simp [brackets]
  refine .of_plain (List.all_eq_true.mpr fun c hc => decide_eq_true fun hbracket => ?_)
  exact not_mem_toDigits (hdigit c hbracket) n (by simpa using hc)

theorem nests_mask (hname : Balanced name.toList) (wide : Bool) (bit : Nat) :
    Nests (text ("#define " ++ name ++ " (" ++ unit wide ++ "<<" ++ toString bit ++ ")\n")) := by
  have hunit : Balanced (unit wide).toList := by cases wide <;> exact .of_plain (by decide)
  have hshift : Balanced (unit wide ++ "<<" ++ toString bit).toList :=
    balanced_append (balanced_append hunit (.of_plain (by decide))) (balanced_toString bit)
  have hmask := (balanced_define hname).append (.append (.enclosed .round hshift)
    (.plain (by decide : '\n' ∉ brackets)))
  refine .text ?_
  simpa using hmask

theorem nests_storageAlias (wide : Bool) {name : Option String}
    (hname : ∀ s ∈ name, Balanced s.toList) : Nests (storageAlias wide name) := by
  cases name with
  | none => exact .done
  | some name =>
    have hstorage : Balanced ("typedef " ++ storage wide ++ " ").toList := by
      cases wide <;> exact .of_plain (by decide)
    have hnamed := balanced_append hstorage (hname name rfl)
    exact .text (balanced_append hnamed (.of_plain (by decide)))

variable (hinner : ∀ id d l, Nests (inner id d l))
include hinner

theorem nests_parameters (ids : List NodeId) (d l : Nat) : Nests (parameters inner ids d l) :=
  fun _ => .separated (.balanced (.of_plain (by decide))) fun id _ => hinner id (d + 1) l _

theorem nests_braced (hindent : Balanced options.indent.toList) {keyword ending : String}
    {name : Option String} (hkeyword : Balanced keyword.toList)
    (hname : ∀ s ∈ name, Balanced s.toList) (hending : Balanced ending.toList) (ids : List NodeId)
    (d l : Nat) : Nests (braced options inner keyword name ids ending d l) := by
  intro closings
  have hmargin (l : Nat) : Nests (indentation options l) := .repeated hindent l
  have hitems : Nests (items options inner ending ids (d + 1) (l + 1)) :=
    .forM (fun id => (hmargin (l + 1)).bind ((hinner id (d + 1) (l + 1)).bind (.text hending))) ids
  refine ((nests_typedefLine hkeyword hname).atTop d closings).bind ?_
  refine (nests_heading hkeyword hname closings).bind ?_
  refine (hmargin l closings).bind ?_
  refine (Triple.opened .curly (a := []) rfl .nil (.plain (by decide))).bind ?_
  refine (hitems _).bind ?_
  refine (hmargin l _).bind ?_
  refine (Triple.closed rfl .nil).bind ?_
  exact Nests.atTop (.plain (by decide)) d closings

theorem nests_dimension (d l : Nat) (size : NodeId) : Nests (dimension inner d l size) := by
  intro closings
  refine (Triple.opened .square (a := []) rfl .nil .nil).bind ?_
  exact (hinner size d l _).bind (.closed rfl .nil)

theorem nests_declaration (hname : Balanced name.toList) (id : NodeId) (initial : Option NodeId)
    (d l : Nat) : Nests (declaration tree inner id name initial d l) := by
  refine .orFault fun slot _ => (hinner slot.1 d l).bind ((Nests.text hname).bind ?_)
  have hinitial : Nests (initializer inner d l initial) := by
    cases initial with
    | none => exact .done
    | some id => exact (Nests.plain (by decide)).bind (hinner id (d + 1) l)
  refine (Nests.forM (nests_dimension hinner d l) slot.2.arraySizes).bind ?_
  exact (hinitial.bind (.plain (by decide))).atTop d

theorem nests_typeUsage (hname : Balanced name.toList) (usage : TypeUsage) (d l : Nat) :
    Nests (typeUsage inner name usage d l) := by
  have hbase : Nests (base inner name d l usage.inlineAggregate) := by
    cases usage.inlineAggregate with
    | none => exact .text hname
    | some id => exact hinner id (d + 1) l
  exact hbase.bind ((Nests.plain (by decide)).bind (.repeated (.of_plain (by decide)) _))

theorem nests_procedure (hname : Balanced name.toList) (returnType : Option NodeId)
    (ids : List NodeId) (d l : Nat) : Nests (procedure inner name returnType ids d l) := by
  intro closings
  have hreturned : Nests (returned inner d l returnType) := by
    cases returnType with
    | none => exact .plain (by decide)
    | some id => exact hinner id (d + 1) l
  have hparameters : Nests (procedureParameters inner d l ids) := by
    cases ids with
    | nil => exact .plain (by decide)
    | cons first rest => exact nests_parameters hinner (first :: rest) d l
  refine (hreturned closings).bind ?_
  refine (Triple.opened .round (String.toList_append ..) hname .nil).bind ?_
  exact (hparameters _).bind (.closed rfl (.of_plain (by decide)))

variable (htext : ∀ id node, tree.node id = .ok node → Balanced node.name.toList)
include htext

theorem nests_tag (id : NodeId) (d l : Nat) : Nests (tag tree inner id d l) := by
  intro closings
  refine .tag (fun node hnode => .balanced (htext id node hnode))
    (.opened .round (a := []) rfl .nil .nil) (.balanced (.of_plain (by decide)))
    (.closed rfl .nil) fun _ _ _ _ p _ => hinner p (d + 1) l _

variable (hindent : Balanced options.indent.toList)
include hindent

theorem nests_tagComment (node : Node) (d l : Nat) :
    Nests (tagComment tree options inner node d l) := by
  unfold tagComment
  split
  · have htags : Nests (separated " " (tag tree inner · d l) node.tags) :=
      fun _ => .separated (.balanced (.of_plain (by decide)))
        fun id _ => nests_tag hinner htext id d l _
    have hline : Nests (do text "\n"; indentation options l) :=
      (Nests.plain (by decide)).bind (.repeated hindent l)
    exact (Nests.plain (by decide)).bind (htags.bind hline)
  · exact .done

theorem nests_flags {name : Option String} (hname : ∀ s ∈ name, Balanced s.toList)
    (bits : List NodeId) (d l : Nat) : Nests (flags tree options inner name bits d l) := by
  have hmasks (wide : Bool) (bit : Nat) (ids : List NodeId) (d : Nat) :
      Nests (masks tree options inner wide d l bit ids) := by
    induction ids generalizing bit with
    | nil => exact .done
    | cons id rest ih =>
      refine .orFault fun flag hflag => ?_
      have hcomment := nests_tagComment hinner htext hindent flag d l
      exact hcomment.bind ((nests_mask (htext id flag hflag) wide bit).bind (ih (bit + 1)))
  exact (hmasks _ 0 bits (d + 1)).bind (nests_storageAlias _ hname)

theorem nests_nodeWith (id : NodeId) (d l : Nat) : Nests (nodeWith tree options inner id d l) := by
  refine .orFault fun node hnode => ?_
  refine (nests_tagComment hinner htext hindent node d l).bind ?_
  have hname := htext id node hnode
  have hstext : ∀ s ∈ node.text, Balanced s.toList := fun s hs => Node.name_of_mem_text hs ▸ hname
  cases node.payload with
  | identifier | numericConstant | stringConstant | charConstant => exact .text hname
  -- a pair that is opened by one text and closed by another is followed through what is awaited
  | unary op operand =>
    intro closings
    have hopened : ("(" ++ op.spelling).toList = [] ++ '(' :: op.spelling.toList := by simp
    refine (Triple.opened .round hopened .nil (balanced_unary op)).bind ?_
    exact (hinner operand (d + 1) l _).bind (.closed rfl .nil)
  | binary op left right =>
    intro closings
    have hspaced : Balanced (" " ++ op.spelling ++ " ").toList :=
      balanced_append (balanced_append (.of_plain (by decide)) (balanced_binary op))
        (.of_plain (by decide))
    refine (Triple.opened .round (a := []) rfl .nil .nil).bind ?_
    refine (hinner left d l _).bind ?_
    refine (Triple.balanced hspaced).bind ?_
    exact (hinner right (d + 1) l _).bind (.closed rfl .nil)
  | struct ids | union ids | enumeration ids =>
    exact nests_braced hinner hindent (.of_plain (by decide)) hstext (.of_plain (by decide)) ids d l
  | flags bits => exact nests_flags hinner htext hindent hstext bits d l
  | declaration type initial => exact nests_declaration hinner hname id initial d l
  | typeUsage usage => exact nests_typeUsage hinner hname usage d l
  | tag ids => exact nests_tag hinner htext id d l
  | constant expression =>
    intro closings
    have hopened : ("#define " ++ node.name ++ " (").toList =
        ("#define " ++ node.name ++ " ").toList ++ ['('] := by simp
    refine (Triple.opened .round hopened (balanced_define hname) .nil).bind ?_
    exact (hinner expression (d + 1) l _).bind (.closed rfl (.of_plain (by decide)))
  | procedure returnType ids => exact nests_procedure hinner hname returnType ids d l

end Printer

theorem emitText_balanced {tree : Tree} {options : Options} {id : NodeId} {follow : Bool}
    {s : String} (htext : ∀ node ∈ tree.nodes, ∀ t ∈ node.text, Balanced t.toList)
    (hindent : Balanced options.indent.toList) (hs : emitText tree options id follow = .ok s) :
    Balanced s.toList := by
  have hname (id : NodeId) (node : Node) (hnode : tree.node id = .ok node) :
      Balanced node.name.toList := by
    have hmem := Tree.mem_nodes hnode
    cases ht : node.text with
    | none => simpa [Node.name, ht] using Balanced.nil
    | some t => simpa [Node.name, ht] using htext node hmem t ht
  have hnests (fuel : Nat) (id : NodeId) (d l : Nat) :
      Nests (nodeWithin tree options fuel id d l) := by
    induction fuel generalizing id d l with
    | zero => exact fun _ => .fault .endless
    | succ fuel ih => exact nests_nodeWith ih hname hindent id d l
  exact Triple.emitText (fun id => hnests _ id 0 0 []) .nil hs

def oddTree : Tree where
  nodes := #[⟨.stringConstant, some "f(x)", none, []⟩, ⟨.tag [0], some "max", none, []⟩,
    ⟨.struct [1], some "S", none, []⟩, ⟨.unary .invalid 2, some "(invalid)", none, [1]⟩]

def oddText : String := "// max(f(x))\n((invalid)struct S\n\x7b\n    max(f(x));\n\x7d)"

theorem emitText_balanced_odd :
    (∀ node ∈ oddTree.nodes, ∀ t ∈ node.text, Balanced t.toList) ∧
    emitText oddTree {} 3 false = .ok oddText ∧ Balanced oddText.toList := by
  have hcall : Balanced "f(x)".toList :=
    (Balanced.plain (by decide : 'f' ∉ brackets)).append
      (.enclosed .round (.plain (by decide : 'x' ∉ brackets)))
  have htext : ∀ node ∈ oddTree.nodes, ∀ t ∈ node.text, Balanced t.toList := by
    simp only [oddTree, List.mem_toArray, List.forall_mem_cons, Option.mem_some_iff, forall_eq']
    exact ⟨hcall, .of_plain (by decide), .of_plain (by decide), balanced_invalid,
      List.forall_mem_nil _⟩
  have hprints : emitText oddTree {} 3 false = .ok oddText := rfl
  exact ⟨htext, hprints, emitText_balanced htext (.of_plain (by decide)) hprints⟩

end DeclTree.Header
