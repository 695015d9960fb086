import DeclTree.Header.Emit
import DeclTree.Proofs.ByteOrder
import DeclTree.Proofs.Hosting

namespace DeclTree.Header.HeaderGenerator

def lastNamed (files : List SourceFile) (name : String) : Option SourceFile :=
  (files.filter (·.name = name)).getLast?

structure Collects (options : Options) (files : List SourceFile) (g : HeaderGenerator) : Prop where
  options_eq : g.options = options
  output_last : ∀ name file, lastNamed files name = some file →
    ∃ header, compile file.tree options = .ok header ∧ g.output name = some header
  output_other : ∀ name, name ∉ files.map SourceFile.name → g.output name = none

variable {options : Options} {files : List SourceFile} {file : SourceFile} {g : HeaderGenerator}
  {name header : String}

theorem lastNamed_append_singleton :
    lastNamed (files ++ [file]) name =
      if file.name = name then some file else lastNamed files name := by
  unfold lastNamed
  by_cases h : file.name = name <;> simp [h]

theorem exists_lastNamed (h : name ∈ files.map SourceFile.name) :
    ∃ file, lastNamed files name = some file := by
  obtain ⟨file, hfile, rfl⟩ := List.mem_map.mp h
  have hmem : file ∈ files.filter (·.name = file.name) := List.mem_filter.mpr ⟨hfile, by simp⟩
  exact ⟨_, List.getLast?_eq_some_getLast (List.ne_nil_of_mem hmem)⟩

theorem output_insert (g : HeaderGenerator) (file : SourceFile) (name header : String) :
    output { g with headers := g.headers.insert file.name header } name =
      if file.name = name then some header else g.output name := by
  rw [output, Std.TreeMap.getElem?_insert]
  simp only [Std.compare_eq_iff_eq]
  rfl

namespace Collects

theorem init (options : Options) : Collects options [] { options } where
  options_eq := rfl
  output_last _ _ h := nomatch h
  output_other _ _ := Std.TreeMap.getElem?_emptyc

theorem insert (h : Collects options files g) (hheader : compile file.tree options = .ok header) :
    Collects options (files ++ [file])
      { g with headers := g.headers.insert file.name header } where
  options_eq := h.options_eq
  output_last name last hlast := by
    rw [lastNamed_append_singleton] at hlast
    rw [output_insert]
    split at hlast
    · next hname =>
      cases hlast
      exact ⟨header, hheader, if_pos hname⟩
    · next hname =>
      rw [if_neg hname]
      exact h.output_last name last hlast
  output_other name hname := by
    rw [List.map_append, List.mem_append, not_or] at hname
    rw [output_insert, if_neg (fun heq => hname.2 (by simp [heq]))]
    exact h.output_other name hname.1

end Collects

theorem outputs_ascending (g : HeaderGenerator) :
    g.outputs.Pairwise fun a b => Text.utf8 a.1 < Text.utf8 b.1 := by
  have hkeys : g.outputs.Pairwise fun a b => compare a.1 b.1 = .lt :=
    Std.TreeMap.ordered_keys_toList
  exact hkeys.imp fun h => Text.utf8_lt_of_lt (compareOfLessAndEq_eq_lt.mp h)

theorem mem_outputs (g : HeaderGenerator) :
    (name, header) ∈ g.outputs ↔ g.output name = some header :=
  Std.TreeMap.mem_toList_iff_getElem?_eq_some

structure Holds (options : Options) (files : List SourceFile) (g : HeaderGenerator) : Prop
    extends Collects options files g where
  outputs_ascending : g.outputs.Pairwise fun a b => Text.utf8 a.1 < Text.utf8 b.1
  mem_outputs : ∀ name header, (name, header) ∈ g.outputs ↔ g.output name = some header
  mem_names : ∀ name, name ∈ g.outputs.map Prod.fst ↔ name ∈ files.map SourceFile.name

theorem Collects.holds (h : Collects options files g) : Holds options files g where
  toCollects := h
  outputs_ascending := outputs_ascending g
  mem_outputs _ _ := mem_outputs g
  mem_names name := by
    constructor
    · intro hname
      obtain ⟨⟨_, header⟩, hmem, rfl⟩ := List.mem_map.mp hname
      by_contra hother
      have houtput := (mem_outputs g).mp hmem
      rw [h.output_other _ hother] at houtput
      cases houtput
    · intro hname
      obtain ⟨file, hlast⟩ := exists_lastNamed hname
      obtain ⟨header, _, houtput⟩ := h.output_last name file hlast
      exact List.mem_map.mpr ⟨(name, header), (mem_outputs g).mpr houtput, rfl⟩

section Runs

open Host

variable {β : Type} [Generator β] {earlier : List SourceFile} {history : List (List SourceFile)}

def Renders (options : Options) (files : List SourceFile) : Prop :=
  ∀ file ∈ files, ∃ header, compile file.tree options = .ok header

theorem handle_parse (hheader : compile file.tree g.options = .ok header) :
    Generator.handle (.parse file) (.inl g : HeaderGenerator ⊕ β) =
      .ok (.inl { g with headers := g.headers.insert file.name header }) := by
  simp only [Generator.handle, Generator.onParse, hheader]
  rfl

theorem Collects.callAll (h : Collects options earlier g) (hfiles : Renders options files) :
    ∃ g' calls, Collects options (earlier ++ files) g' ∧
      callAll [(.inl g : HeaderGenerator ⊕ β)] (files.map .parse ++ [.cleanup]) =
        .ok ([.inl g'], calls) := by
  induction files generalizing earlier g with
  | nil =>
    rw [List.append_nil]
    exact ⟨g, _, h, rfl⟩
  | cons file files ih =>
    obtain ⟨header, hheader⟩ := hfiles file List.mem_cons_self
    obtain ⟨g', later, hg', hlater⟩ :=
      ih (h.insert hheader) fun other hother => hfiles other (List.mem_cons_of_mem _ hother)
    rw [List.append_assoc, List.singleton_append] at hg'
    have hparse := handle_parse (β := β) (h.options_eq ▸ hheader)
    exact ⟨g', _, hg', callAll_alone_cons_eq_ok.mpr ⟨_, later, hparse, hlater, rfl⟩⟩

theorem exists_batch (hfiles : Renders options files) :
    ∃ g', Collects options files g' ∧ ∀ g : HeaderGenerator, g.options = options →
      ∃ calls, Host.callAll [(.inl g : HeaderGenerator ⊕ β)] (Hook.batch files) =
        .ok ([.inl g'], calls) := by
  obtain ⟨g', calls, hg', hcalls⟩ := (Collects.init options).callAll (β := β) hfiles
  refine ⟨g', hg', fun g hoptions => ⟨_, callAll_alone_cons_eq_ok.mpr ⟨_, calls, rfl, ?_, rfl⟩⟩⟩
  subst hoptions
  exact hcalls

theorem exists_batches (hhistory : ∀ files ∈ history, Renders options files)
    (hoptions : g.options = options) :
    ∃ g' calls, g'.options = options ∧
      Host.callAll [(.inl g : HeaderGenerator ⊕ β)] (history.flatMap Hook.batch) =
        .ok ([.inl g'], calls) := by
  induction history generalizing g with
  | nil => exact ⟨g, [], hoptions, rfl⟩
  | cons files history ih =>
    obtain ⟨between, hbetween, hbatch⟩ := exists_batch (β := β) (hhistory files List.mem_cons_self)
    obtain ⟨first, hfirst⟩ := hbatch g hoptions
    obtain ⟨g', later, hg', hlater⟩ :=
      ih (fun rest hrest => hhistory rest (List.mem_cons_of_mem _ hrest)) hbetween.options_eq
    exact ⟨g', _, hg', callAll_append_eq_ok.mpr ⟨_, first, later, hfirst, hlater, rfl⟩⟩

theorem holds_last_batch {gs : List (HeaderGenerator ⊕ β)} {i : Nat} (hg : gs[i]? = some (.inl g))
    (hfiles : ∀ batch ∈ history ++ [files], Renders g.options batch)
    (hothers : ∀ j other, j ≠ i → gs[j]? = some other →
      ∃ result, (ofList [other]).runAll (history ++ [files]) = .ok result) :
    ∃ after calls g', (ofList gs).runAll (history ++ [files]) = .ok (after, calls) ∧
      after.generators[i]? = some (.inl g') ∧ Holds g.options files g' ∧
      ∃ alone, (ofList [(.inl { options := g.options } : HeaderGenerator ⊕ β)]).run files =
        .ok (ofList [.inl g'], alone) := by
  obtain ⟨between, first, hoptions, hfirst⟩ := exists_batches (β := β) (g := g)
    (fun batch hbatch => hfiles batch (List.mem_append_left _ hbatch)) rfl
  obtain ⟨g', hg', hbatch⟩ := exists_batch (β := β)
    (hfiles files (List.mem_append_right _ List.mem_cons_self))
  obtain ⟨last, hlast⟩ := hbatch between hoptions
  obtain ⟨alone, halone⟩ := hbatch { options := g.options } rfl
  have hown : (ofList [(.inl g : HeaderGenerator ⊕ β)]).runAll (history ++ [files]) =
      .ok (ofList [.inl g'], first ++ last) := by
    apply runAll_eq_ok.mpr
    rw [List.flatMap_append, List.flatMap_singleton]
    exact callAll_append_eq_ok.mpr ⟨_, first, last, hfirst, hlast, rfl⟩
  obtain ⟨after, calls, hrun⟩ : ∃ after calls,
      (ofList gs).runAll (history ++ [files]) = .ok (after, calls) := by
    refine runAll_completes fun other hother => ?_
    obtain ⟨j, hj⟩ := List.getElem?_of_mem hother
    by_cases hji : j = i
    · obtain rfl : .inl g = other := Option.some.inj (hg.symm.trans (hji ▸ hj))
      exact ⟨_, hown⟩
    · exact hothers j other hji hj
  obtain ⟨g'', _, hafter, hisolated, _⟩ := runAll_isolated hrun (by rwa [generators_ofList])
  have heq : g'' = .inl g' := by
    have hhost := congrArg Prod.fst (Except.ok.inj (hisolated.symm.trans hown))
    rw [ofList_eq, ofList_eq] at hhost
    exact (List.cons.inj (Host.mk.inj hhost)).1
  exact ⟨after, calls, g', hrun, heq ▸ hafter, hg'.holds, alone, run_eq_ok.mpr halone⟩

def constantFile (name value : String) : SourceFile where
  name := name
  tree := { nodes := #[⟨.numericConstant, some value, none, []⟩, ⟨.constant 0, some "A", none, []⟩]
            roots := [1] }

def rerunGenerators : List (HeaderGenerator ⊕ Retainer) :=
  [.inl {}, .inr {}, .inl { options := .ofSettings [.withoutBanner] }]

def rerunHistory : List (List SourceFile) := [[constantFile "old.desk" "0"]]

def rerunFiles : List SourceFile :=
  [constantFile "é.desk" "1", constantFile "a.desk" "2", constantFile "a.desk" "3"]

theorem holds_last_batch_rerun :
    ∃ after calls g', (ofList rerunGenerators).runAll (rerunHistory ++ [rerunFiles]) =
        .ok (after, calls) ∧
      after.generators[2]? = some (.inl g') ∧ g'.output "old.desk" = none ∧
      ("a.desk", "#define A (3)\n") ∈ g'.outputs ∧
      g'.outputs.Pairwise fun a b => Text.utf8 a.1 < Text.utf8 b.1 := by
  have hlast : compile (constantFile "a.desk" "3").tree (.ofSettings [.withoutBanner]) =
      .ok "#define A (3)\n" := by decide
  have hfiles : ∀ batch ∈ rerunHistory ++ [rerunFiles],
      Renders (.ofSettings [.withoutBanner]) batch := by
    intro batch hbatch
    obtain rfl | rfl : batch = [constantFile "old.desk" "0"] ∨ batch = rerunFiles := by
      simpa [rerunHistory] using hbatch
    · intro file hfile
      obtain rfl := List.mem_singleton.mp hfile
      exact ⟨"#define A (0)\n", by decide⟩
    · intro file hfile
      obtain rfl | rfl | rfl : file = constantFile "é.desk" "1" ∨
          file = constantFile "a.desk" "2" ∨ file = constantFile "a.desk" "3" := by
        simpa [rerunFiles] using hfile
      · exact ⟨"#define A (1)\n", by decide⟩
      · exact ⟨"#define A (2)\n", by decide⟩
      · exact ⟨_, hlast⟩
  have hothers : ∀ j other, j ≠ 2 → rerunGenerators[j]? = some other → ∃ result,
      (ofList [other]).runAll (rerunHistory ++ [rerunFiles]) = .ok result := by
    intro j other hj hother
    match j with
    | 0 =>
      cases hother
      exact ⟨_, rfl⟩
    | 1 =>
      cases hother
      exact ⟨_, rfl⟩
    | 2 => exact absurd rfl hj
    | _ + 3 => cases hother
  obtain ⟨after, calls, g', hrun, hafter, hholds, _⟩ := holds_last_batch rfl hfiles hothers
  obtain ⟨header, hheader, houtput⟩ := hholds.output_last "a.desk" _ rfl
  obtain rfl : "#define A (3)\n" = header := Except.ok.inj (hlast.symm.trans hheader)
  exact ⟨after, calls, g', hrun, hafter, hholds.output_other "old.desk" (by decide),
    (hholds.mem_outputs _ _).mpr houtput, hholds.outputs_ascending⟩

end Runs

end DeclTree.Header.HeaderGenerator
