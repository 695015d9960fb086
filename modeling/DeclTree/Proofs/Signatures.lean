import Mathlib.Data.List.TakeWhile
import DeclTree.Proofs.Edges
import DeclTree.Queries

namespace DeclTree

namespace TypeSignature

def spelling (s : TypeSignature) : String :=
  String.ofList (List.replicate s.pointerCount marker) ++ s.base

/-- In front of such a name all markers count as pointers. -/
def Bare (name : String) : Prop := name.toList.head? ≠ some marker

instance (name : String) : Decidable (Bare name) :=
  inferInstanceAs (Decidable (name.toList.head? ≠ some marker))

theorem toList_spelling (s : TypeSignature) :
    s.spelling.toList = List.replicate s.pointerCount marker ++ s.base.toList := by
  rw [spelling, String.toList_append, String.toList_ofList]

theorem utf8ByteSize_markers (n : Nat) :
    (String.ofList (List.replicate n marker)).utf8ByteSize = n := by
  induction n with
  | zero => rfl
  | succ n ih =>
    rw [List.replicate_succ, String.ofList_cons, String.utf8ByteSize_append, ih,
      String.utf8ByteSize_singleton, Nat.add_comm]
    rfl

theorem takeWhile_marker (cs : List Char) :
    cs.takeWhile (· = marker) = List.replicate (cs.takeWhile (· = marker)).length marker := by
  apply List.eq_replicate_of_mem
  intro c hc
  simpa using List.mem_takeWhile_imp hc

theorem pointerCount_parse (text : String) :
    (parse text).pointerCount = (text.toList.takeWhile (· = marker)).length := by
  have hsplit : String.ofList (text.toList.takeWhile (· = marker)) ++ (parse text).base = text := by
    apply String.toList_inj.mp
    rw [String.toList_append, String.toList_ofList, parse, String.toList_ofList,
      List.takeWhile_append_dropWhile]
  have hsize := congrArg String.utf8ByteSize hsplit
  rw [String.utf8ByteSize_append, takeWhile_marker, utf8ByteSize_markers] at hsize
  exact Nat.sub_eq_of_eq_add hsize.symm

theorem spelling_parse (text : String) : (parse text).spelling = text := by
  apply String.toList_inj.mp
  rw [toList_spelling, pointerCount_parse, ← takeWhile_marker, parse, String.toList_ofList,
    List.takeWhile_append_dropWhile]

theorem bare_parse (text : String) : Bare (parse text).base := by
  intro hhead
  rw [parse, String.toList_ofList] at hhead
  have hstop := List.head?_dropWhile_not (· = marker) text.toList
  rw [hhead] at hstop
  exact absurd hstop (by decide)

theorem parse_spelling {s : TypeSignature} (h : Bare s.base) : parse s.spelling = s := by
  have hmarker : ∀ c ∈ List.replicate s.pointerCount marker, decide (c = marker) = true := by
    intro c hc
    exact decide_eq_true (List.eq_of_mem_replicate hc)
  have hbase : s.base.toList.takeWhile (· = marker) = [] ∧
      s.base.toList.dropWhile (· = marker) = s.base.toList := by
    cases hb : s.base.toList with
    | nil => exact ⟨rfl, rfl⟩
    | cons c rest =>
      have hc : ¬ decide (c = marker) = true := by simpa [Bare, hb] using h
      exact ⟨List.takeWhile_cons_of_neg hc, List.dropWhile_cons_of_neg hc⟩
  have hcount : (parse s.spelling).pointerCount = s.pointerCount := by
    rw [pointerCount_parse, toList_spelling, List.takeWhile_append_of_pos hmarker, hbase.1,
      List.append_nil, List.length_replicate]
  have hname : (parse s.spelling).base = s.base := by
    rw [parse, toList_spelling, List.dropWhile_append_of_pos hmarker, hbase.2, String.ofList_toList]
  exact congrArg₂ mk hcount hname

theorem parse_eq_iff {text : String} {s : TypeSignature} :
    parse text = s ↔ Bare s.base ∧ text = s.spelling := by
  constructor
  · rintro rfl
    exact ⟨bare_parse text, (spelling_parse text).symm⟩
  · rintro ⟨hbare, rfl⟩
    exact parse_spelling hbare

end TypeSignature

namespace Tree

open TypeSignature

def Declares (tree : Tree) (id : NodeId) (usage : TypeUsage) (text : Option String) : Prop :=
  ∃ node type initial slot, tree.node id = .ok node ∧ node.payload = .declaration type initial ∧
    tree.node type = .ok slot ∧ slot.payload = .typeUsage usage ∧ slot.text = text

variable {tree : Tree} {id : NodeId} {usage : TypeUsage} {text : Option String}
  {signature : String}

theorem declarationIsType_of_declares (h : tree.Declares id usage text) (signature : String) :
    tree.declarationIsType id signature =
      .ok (decide (usage.inlineAggregate = none ∧
        usage.pointerCount = (parse signature).pointerCount ∧
        text = some (parse signature).base)) := by
  obtain ⟨node, type, initial, slot, hnode, hp, hslot, husage, rfl⟩ := h
  have hpair := typeUsageOf_of_ok hnode hp hslot husage
  refine bind_eq_ok.mpr ⟨node, hnode, ?_⟩
  rw [hp]
  refine bind_eq_ok.mpr ⟨(type, usage), hpair, bind_eq_ok.mpr ⟨slot, hslot, ?_⟩⟩
  apply congrArg Except.ok
  rw [Bool.eq_iff_iff]
  simp [and_assoc]

theorem declarationIsType_of_ne_declaration {node : Node} (hnode : tree.node id = .ok node)
    (htype : node.type ≠ .declaration) (signature : String) :
    tree.declarationIsType id signature = .ok false := by
  refine bind_eq_ok.mpr ⟨node, hnode, ?_⟩
  cases hp : node.payload with
  | declaration type initial =>
    rw [Node.type, hp] at htype
    exact absurd rfl htype
  | _ => rfl

theorem exists_declares (h : tree.declarationIsType id signature = .ok true) :
    ∃ usage text, tree.Declares id usage text := by
  obtain ⟨node, hnode, h⟩ := bind_eq_ok.mp h
  cases hp : node.payload with
  | declaration type initial =>
    rw [hp] at h
    obtain ⟨⟨type', usage⟩, hpair, -⟩ := bind_eq_ok.mp h
    obtain ⟨node', initial', slot, hnode', hp', hslot, husage⟩ := typeUsageOf_eq_ok hpair
    exact ⟨usage, slot.text, node', type', initial', slot, hnode', hp', hslot, husage, rfl⟩
  | _ =>
    rw [hp] at h
    cases h

theorem declarationIsType_eq_true_iff :
    tree.declarationIsType id signature = .ok true ↔
      ∃ usage, tree.Declares id usage (some (parse signature).base) ∧
        usage.inlineAggregate = none ∧ usage.pointerCount = (parse signature).pointerCount := by
  constructor
  · intro h
    obtain ⟨usage, text, hdeclares⟩ := exists_declares h
    rw [declarationIsType_of_declares hdeclares, Except.ok.injEq, decide_eq_true_iff] at h
    obtain ⟨hinline, hcount, rfl⟩ := h
    exact ⟨usage, hdeclares, hinline, hcount⟩
  · rintro ⟨usage, hdeclares, hinline, hcount⟩
    rw [declarationIsType_of_declares hdeclares]
    exact congrArg Except.ok (decide_eq_true ⟨hinline, hcount, rfl⟩)

/-- A declaration of a named type matches the signature that spells this type, unless the name
starts with a marker itself, and nothing else matches any signature. -/
theorem declarationIsType_spelling :
    (∀ signature : String, (parse signature).spelling = signature ∧
      Bare (parse signature).base ∧ (parse signature).pointerCount =
        signature.utf8ByteSize - (parse signature).base.utf8ByteSize) ∧
    (∀ (tree : Tree) (id : NodeId) (usage : TypeUsage) (name : String),
      tree.Declares id usage (some name) → usage.inlineAggregate = none → ∀ signature,
        tree.declarationIsType id signature =
          .ok (decide (Bare name ∧ signature = spelling ⟨usage.pointerCount, name⟩))) ∧
    (∀ (tree : Tree) (id : NodeId) (usage : TypeUsage) (text : Option String),
      tree.Declares id usage text → usage.inlineAggregate ≠ none ∨ text = none → ∀ signature,
        tree.declarationIsType id signature = .ok false) ∧
    (∀ (tree : Tree) (id : NodeId) (node : Node),
      tree.node id = .ok node → node.type ≠ .declaration → ∀ signature,
        tree.declarationIsType id signature = .ok false) ∧
    ∀ (tree tree' : Tree) (id id' : NodeId) (signature : String),
      tree.declarationIsType id signature = .ok true →
      tree'.declarationIsType id' signature = .ok true →
      ∃ usage usage' name, tree.Declares id usage (some name) ∧
        tree'.Declares id' usage' (some name) ∧ usage.pointerCount = usage'.pointerCount := by
  refine ⟨fun s => ⟨spelling_parse s, bare_parse s, rfl⟩, ?_, ?_, ?_, ?_⟩
  · intro tree id usage name h hinline signature
    have hparse : parse signature = ⟨usage.pointerCount, name⟩ ↔
        Bare name ∧ signature = spelling ⟨usage.pointerCount, name⟩ := parse_eq_iff
    rw [declarationIsType_of_declares h, Except.ok.injEq, decide_eq_decide, ← hparse]
    cases parse signature
    simp [hinline, eq_comm]
  · intro tree id usage text h hnone signature
    rw [declarationIsType_of_declares h, decide_eq_false]
    rintro ⟨hinline, -, rfl⟩
    exact hnone.elim (· hinline) nofun
  · intro tree id node hnode htype
    exact declarationIsType_of_ne_declaration hnode htype
  · intro tree tree' id id' signature h h'
    obtain ⟨usage, hdeclares, -, hcount⟩ := declarationIsType_eq_true_iff.mp h
    obtain ⟨usage', hdeclares', -, hcount'⟩ := declarationIsType_eq_true_iff.mp h'
    exact ⟨usage, usage', _, hdeclares, hdeclares', hcount.trans hcount'.symm⟩

def widgets : Tree where
  nodes := #[⟨.typeUsage { pointerCount := 1 }, some "é*", none, []⟩,
    ⟨.declaration 0 none, some "a", none, []⟩, ⟨.typeUsage {}, some "*é", none, []⟩,
    ⟨.declaration 2 none, some "b", none, []⟩, ⟨.struct [], none, none, []⟩,
    ⟨.typeUsage { inlineAggregate := some 4 }, none, none, []⟩,
    ⟨.declaration 5 none, some "c", none, []⟩, ⟨.declaration 0 none, some "d", none, []⟩]

theorem declarationIsType_spelling_widgets :
    widgets.declarationIsType 1 "*é*" = .ok true ∧ widgets.declarationIsType 1 "é*" = .ok false ∧
    widgets.declarationIsType 3 "*é" = .ok false ∧ widgets.declarationIsType 6 "" = .ok false ∧
    widgets.declarationIsType 4 "" = .ok false ∧
    ∃ usage usage' name, widgets.Declares 1 usage (some name) ∧
      widgets.Declares 7 usage' (some name) ∧ usage.pointerCount = usage'.pointerCount := by
  obtain ⟨-, hnamed, hinline, hother, hcommon⟩ := declarationIsType_spelling
  have hpointer : widgets.Declares 1 { pointerCount := 1 } (some "é*") :=
    ⟨_, _, _, _, rfl, rfl, rfl, rfl, rfl⟩
  have hpointer' : widgets.Declares 7 { pointerCount := 1 } (some "é*") :=
    ⟨_, _, _, _, rfl, rfl, rfl, rfl, rfl⟩
  have hmarked : widgets.Declares 3 {} (some "*é") := ⟨_, _, _, _, rfl, rfl, rfl, rfl, rfl⟩
  have hstruct : widgets.Declares 6 { inlineAggregate := some 4 } none :=
    ⟨_, _, _, _, rfl, rfl, rfl, rfl, rfl⟩
  have hmatch : widgets.declarationIsType 1 "*é*" = .ok true := by
    rw [hnamed widgets 1 _ _ hpointer rfl]
    decide
  have hmatch' : widgets.declarationIsType 7 "*é*" = .ok true := by
    rw [hnamed widgets 7 _ _ hpointer' rfl]
    decide
  refine ⟨hmatch, ?_, ?_, ?_, ?_, hcommon widgets widgets 1 7 _ hmatch hmatch'⟩
  · rw [hnamed widgets 1 _ _ hpointer rfl]
    decide
  · rw [hnamed widgets 3 _ _ hmarked rfl]
    decide
  · exact hinline widgets 6 _ _ hstruct (.inl nofun) _
  · exact hother widgets 4 _ rfl (by decide) _

end Tree

end DeclTree
