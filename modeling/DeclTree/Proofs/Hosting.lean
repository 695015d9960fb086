import Mathlib.Data.List.Flatten
import DeclTree.Host
import DeclTree.Proofs.Collections

namespace DeclTree

def Hook.batch (files : List SourceFile) : List Hook := .init :: files.map .parse ++ [.cleanup]

namespace Generator

variable {γ : Type} [Generator γ]

def handleAll (hooks : List Hook) (g : γ) : Except Fault γ :=
  hooks.foldlM (fun g hook => handle hook g) g

def serve (files : List SourceFile) (g : γ) : Except Fault γ := do
  let g ← files.foldlM (fun g file => onParse file g) (onInit g)
  return onCleanup g

def serveAll (batches : List (List SourceFile)) (g : γ) : Except Fault γ :=
  batches.foldlM (fun g files => serve files g) g

theorem handleAll_append (hooks more : List Hook) (g : γ) :
    handleAll (hooks ++ more) g = handleAll hooks g >>= handleAll more :=
  List.foldlM_append

theorem handleAll_batch (files : List SourceFile) (g : γ) :
    handleAll (Hook.batch files) g = serve files g := by
  rw [Hook.batch, handleAll_append, handleAll, List.foldlM_cons]
  change List.foldlM _ (onInit g) (files.map Hook.parse) >>= _ = _
  rw [List.foldlM_map]
  rfl

theorem handleAll_flatMap_batch (batches : List (List SourceFile)) (g : γ) :
    handleAll (batches.flatMap Hook.batch) g = serveAll batches g := by
  induction batches generalizing g with
  | nil => rfl
  | cons files batches ih =>
    rw [List.flatMap_cons, handleAll_append, handleAll_batch, serveAll, List.foldlM_cons]
    exact congrArg _ (funext ih)

end Generator

def Hook.phase : Hook → Nat
  | init => 0
  | parse _ => 1
  | cleanup => 2

namespace Host

variable {γ : Type} {gs after : List γ} {g g' : γ} {hook : Hook} {hooks more : List Hook}
  {calls : List (HostCall γ)} {position j : Nat}

theorem generators_foldl_register (host : Host γ) (gs : List γ) :
    (gs.foldl register host).generators = host.generators ++ gs := by
  induction gs generalizing host with
  | nil => exact (List.append_nil _).symm
  | cons g gs ih => rw [List.foldl_cons, ih, register, List.append_assoc, List.singleton_append]

@[simp] theorem generators_ofList (gs : List γ) : (ofList gs).generators = gs :=
  generators_foldl_register {} gs

theorem ofList_eq (gs : List γ) : ofList gs = ⟨gs⟩ :=
  congrArg Host.mk (generators_ofList gs)

def callsOf (hook : Hook) (position : Nat) (gs : List γ) : List (HostCall γ) :=
  (gs.zipIdx position).map fun (g, i) => ⟨i, g, hook⟩

theorem callsOf_cons :
    callsOf hook position (g :: gs) = ⟨position, g, hook⟩ :: callsOf hook (position + 1) gs := rfl

theorem le_position_of_mem {call : HostCall γ} (h : call ∈ callsOf hook position gs) :
    position ≤ call.position := by
  obtain ⟨⟨g, i⟩, hmem, rfl⟩ := List.mem_map.mp h
  exact List.le_snd_of_mem_zipIdx hmem

theorem places_callsOf (hook : Hook) (gs : List γ) :
    (callsOf hook 0 gs).map (fun c => (c.position, c.hook)) =
      (List.range gs.length).map (·, hook) := by
  rw [callsOf, List.map_map, List.range_eq_range', ← List.zipIdx_map_snd 0 gs, List.map_map]
  rfl

theorem own_callsOf (hg : gs[j]? = some g) :
    (callsOf hook position gs).filter (·.position = position + j) =
      [⟨position + j, g, hook⟩] := by
  induction gs generalizing position j with
  | nil => simp at hg
  | cons x gs ih =>
    rw [callsOf_cons]
    cases j with
    | zero =>
      obtain rfl : x = g := by simpa using hg
      have hrest : (callsOf hook (position + 1) gs).filter (·.position = position + 0) = [] := by
        refine List.filter_eq_nil_iff.mpr fun call hcall => ?_
        have hle := le_position_of_mem hcall
        simp only [decide_eq_true_eq]
        omega
      rw [List.filter_cons_of_pos (by simp), hrest]
      rfl
    | succ j =>
      rw [List.filter_cons_of_neg (by simp), Nat.add_succ, ← Nat.succ_add]
      exact ih (by simpa using hg)

variable [Generator γ]

theorem callEach_eq_ok :
    callEach hook position gs = .ok (after, calls) ↔
      List.Forall₂ (fun g g' => Generator.handle hook g = .ok g') gs after ∧
        calls = callsOf hook position gs := by
  induction gs generalizing position after calls with
  | nil =>
    rw [callEach, Except.ok.injEq, Prod.mk.injEq, List.forall₂_nil_left_iff]
    exact and_congr eq_comm eq_comm
  | cons g gs ih =>
    rw [callEach, List.forall₂_cons_left_iff, callsOf_cons]
    simp only [bind_eq_ok]
    constructor
    · rintro ⟨g', hg, ⟨others, later⟩, hothers, ⟨⟩⟩
      obtain ⟨hall, rfl⟩ := ih.mp hothers
      exact ⟨⟨g', others, hg, hall, rfl⟩, rfl⟩
    · rintro ⟨⟨g', others, hg, hall, rfl⟩, rfl⟩
      exact ⟨g', hg, ⟨others, _⟩, ih.mpr ⟨hall, rfl⟩, rfl⟩

theorem callAll_cons_eq_ok :
    callAll gs (hook :: hooks) = .ok (after, calls) ↔
      ∃ between later, List.Forall₂ (fun g g' => Generator.handle hook g = .ok g') gs between ∧
        callAll between hooks = .ok (after, later) ∧ calls = callsOf hook 0 gs ++ later := by
  simp only [callAll, bind_eq_ok]
  constructor
  · rintro ⟨⟨between, first⟩, hfirst, ⟨_, later⟩, hlater, ⟨⟩⟩
    obtain ⟨hall, rfl⟩ := callEach_eq_ok.mp hfirst
    exact ⟨between, later, hall, hlater, rfl⟩
  · rintro ⟨between, later, hall, hlater, rfl⟩
    exact ⟨⟨between, _⟩, callEach_eq_ok.mpr ⟨hall, rfl⟩, ⟨after, later⟩, hlater, rfl⟩

theorem callAll_alone_cons_eq_ok :
    callAll [g] (hook :: hooks) = .ok (after, calls) ↔
      ∃ g' later, Generator.handle hook g = .ok g' ∧ callAll [g'] hooks = .ok (after, later) ∧
        calls = ⟨0, g, hook⟩ :: later := by
  simp only [callAll_cons_eq_ok, List.forall₂_cons_left_iff, List.forall₂_nil_left_iff]
  constructor
  · rintro ⟨_, later, ⟨g', _, hg, rfl, rfl⟩, hlater, rfl⟩
    exact ⟨g', later, hg, hlater, rfl⟩
  · rintro ⟨g', later, hg, hlater, rfl⟩
    exact ⟨[g'], later, ⟨g', [], hg, rfl, rfl⟩, hlater, rfl⟩

theorem callAll_append_eq_ok :
    callAll gs (hooks ++ more) = .ok (after, calls) ↔
      ∃ between first later, callAll gs hooks = .ok (between, first) ∧
        callAll between more = .ok (after, later) ∧ calls = first ++ later := by
  induction hooks generalizing gs calls with
  | nil =>
    constructor
    · intro h
      exact ⟨gs, [], calls, rfl, h, rfl⟩
    · rintro ⟨_, _, later, ⟨⟩, h, rfl⟩
      exact h
  | cons hook hooks ih =>
    simp only [List.cons_append, callAll_cons_eq_ok, ih]
    constructor
    · rintro ⟨next, _, hall, ⟨between, first, later, hfirst, hlater, rfl⟩, rfl⟩
      exact ⟨between, _, later, ⟨next, first, hall, hfirst, rfl⟩, hlater,
        (List.append_assoc _ _ _).symm⟩
    · rintro ⟨between, _, later, ⟨next, first, hall, hfirst, rfl⟩, hlater, rfl⟩
      exact ⟨next, _, hall, ⟨between, first, later, hfirst, hlater, rfl⟩,
        List.append_assoc _ _ _⟩

theorem places_callAll (h : callAll gs hooks = .ok (after, calls)) :
    calls.map (fun c => (c.position, c.hook)) =
      hooks.flatMap fun hook => (List.range gs.length).map (·, hook) := by
  induction hooks generalizing gs calls with
  | nil =>
    obtain ⟨rfl, rfl⟩ := Prod.mk.inj (Except.ok.inj h)
    rfl
  | cons hook hooks ih =>
    obtain ⟨between, later, hall, hlater, rfl⟩ := callAll_cons_eq_ok.mp h
    rw [List.map_append, places_callsOf, ih hlater, ← hall.length_eq, List.flatMap_cons]

def seen (calls : List (HostCall γ)) : List (γ × Hook) := calls.map fun c => (c.generator, c.hook)

theorem callAll_isolated (h : callAll gs hooks = .ok (after, calls)) (hg : gs[j]? = some g) :
    ∃ g' alone, after[j]? = some g' ∧ callAll [g] hooks = .ok ([g'], alone) ∧
      seen (calls.filter (·.position = j)) = seen alone := by
  induction hooks generalizing gs g calls with
  | nil =>
    obtain ⟨rfl, rfl⟩ := Prod.mk.inj (Except.ok.inj h)
    exact ⟨g, [], hg, rfl, rfl⟩
  | cons hook hooks ih =>
    obtain ⟨between, later, hall, hlater, rfl⟩ := callAll_cons_eq_ok.mp h
    obtain ⟨g', hg', hhandle⟩ := exists_of_forall₂ hall hg
    obtain ⟨g'', alone, hafter, halone, hseen⟩ := ih hlater hg'
    refine ⟨g'', ⟨0, g, hook⟩ :: alone, hafter,
      callAll_alone_cons_eq_ok.mpr ⟨g', alone, hhandle, halone, rfl⟩, ?_⟩
    have hown : (callsOf hook 0 gs).filter (·.position = 0 + j) = [⟨0 + j, g, hook⟩] :=
      own_callsOf hg
    rw [Nat.zero_add] at hown
    rw [List.filter_append, hown, seen, List.map_append]
    exact congrArg _ hseen

theorem callAll_completes_iff :
    (∃ calls, callAll gs hooks = .ok (after, calls)) ↔
      List.Forall₂ (fun g g' => Generator.handleAll hooks g = .ok g') gs after := by
  induction hooks generalizing gs with
  | nil =>
    constructor
    · rintro ⟨calls, h⟩
      obtain ⟨rfl, rfl⟩ := Prod.mk.inj (Except.ok.inj h)
      exact List.forall₂_same.mpr fun _ _ => rfl
    · intro h
      have heq : List.Forall₂ (· = ·) gs after := h.imp fun _ _ h => Except.ok.inj h
      rw [List.forall₂_eq_eq_eq] at heq
      exact ⟨[], congrArg (fun gs => Except.ok (gs, [])) heq⟩
  | cons hook hooks ih =>
    have hcons (g g' : γ) : Generator.handleAll (hook :: hooks) g = .ok g' ↔
        ∃ between, Generator.handle hook g = .ok between ∧
          Generator.handleAll hooks between = .ok g' := bind_eq_ok
    simp only [hcons, forall₂_comp, callAll_cons_eq_ok]
    constructor
    · rintro ⟨_, between, later, hall, hlater, rfl⟩
      exact ⟨between, hall, ih.mp ⟨later, hlater⟩⟩
    · rintro ⟨between, hall, hrest⟩
      obtain ⟨later, hlater⟩ := ih.mpr hrest
      exact ⟨_, between, later, hall, hlater, rfl⟩

section Runs

variable {files : List SourceFile} {batches : List (List SourceFile)} {host after : Host γ}

theorem run_eq_ok : host.run files = .ok (after, calls) ↔
    callAll host.generators (Hook.batch files) = .ok (after.generators, calls) := by
  simp only [run, bind_eq_ok]
  constructor
  · rintro ⟨⟨gs, calls⟩, h, ⟨⟩⟩
    exact h
  · intro h
    exact ⟨⟨after.generators, calls⟩, h, rfl⟩

theorem runAll_eq_ok : host.runAll batches = .ok (after, calls) ↔
    callAll host.generators (batches.flatMap Hook.batch) = .ok (after.generators, calls) := by
  induction batches generalizing host calls with
  | nil =>
    constructor
    · rintro ⟨⟩
      rfl
    · rintro h
      obtain ⟨hgs, rfl⟩ := Prod.mk.inj (Except.ok.inj h)
      exact congrArg (fun gs => Except.ok (Host.mk gs, [])) hgs
  | cons files batches ih =>
    rw [List.flatMap_cons, callAll_append_eq_ok]
    simp only [runAll, bind_eq_ok]
    constructor
    · rintro ⟨⟨between, first⟩, hfirst, ⟨_, later⟩, hlater, ⟨⟩⟩
      exact ⟨between.generators, first, later, run_eq_ok.mp hfirst, ih.mp hlater, rfl⟩
    · rintro ⟨between, first, later, hfirst, hlater, rfl⟩
      have hrun : host.run files = .ok (⟨between⟩, first) := run_eq_ok.mpr hfirst
      exact ⟨(⟨between⟩, first), hrun, (after, later), ih.mpr hlater, rfl⟩

structure Protocol (count : Nat) (files : List SourceFile) (calls : List (HostCall γ)) : Prop where
  sequence : calls.map (fun c => (c.position, c.hook)) =
    (List.range count).map (·, .init) ++
      (files.flatMap (fun file => (List.range count).map (·, .parse file)) ++
        (List.range count).map (·, .cleanup))
  phases : calls.Pairwise fun a b => a.hook.phase ≤ b.hook.phase
  once : ∀ j < count, (calls.filter (·.position = j)).map (·.hook) =
    .init :: (files.map .parse ++ [.cleanup])

theorem hooks_callAll_alone (h : callAll [g] hooks = .ok (gs, calls)) :
    calls.map (·.hook) = hooks := by
  have hplaces := congrArg (List.map Prod.snd) (places_callAll h)
  rw [List.map_map] at hplaces
  refine hplaces.trans ?_
  simp [List.map_flatMap]

theorem sequence_of_run (h : host.run files = .ok (after, calls)) :
    calls.map (fun c => (c.position, c.hook)) =
      (List.range host.size).map (·, .init) ++
        (files.flatMap (fun file => (List.range host.size).map (·, .parse file)) ++
          (List.range host.size).map (·, .cleanup)) := by
  rw [places_callAll (run_eq_ok.mp h), Hook.batch, List.cons_append, List.flatMap_cons,
    List.flatMap_append, List.flatMap_map, List.flatMap_singleton]
  rfl

theorem phases_batch (files : List SourceFile) :
    (Hook.batch files).Pairwise fun a b => a.phase ≤ b.phase := by
  have hparses : (files.map Hook.parse).Pairwise fun a b => a.phase ≤ b.phase :=
    List.pairwise_map.mpr (List.pairwise_of_forall fun _ _ => Nat.le_refl _)
  refine List.pairwise_cons.mpr ⟨fun hook _ => Nat.zero_le _, ?_⟩
  refine List.pairwise_append.mpr ⟨hparses, List.pairwise_singleton _ _, ?_⟩
  intro a ha b hb
  obtain ⟨file, _, rfl⟩ := List.mem_map.mp ha
  obtain rfl := List.mem_singleton.mp hb
  exact Nat.le_succ 1

theorem phases_of_run (h : host.run files = .ok (after, calls)) :
    calls.Pairwise fun a b => a.hook.phase ≤ b.hook.phase := by
  have hplaces : (calls.map fun c => (c.position, c.hook)).Pairwise
      fun a b => a.2.phase ≤ b.2.phase := by
    rw [places_callAll (run_eq_ok.mp h), List.pairwise_flatMap]
    constructor
    · intro hook _
      exact List.pairwise_map.mpr (List.pairwise_of_forall fun _ _ => Nat.le_refl _)
    · refine (phases_batch files).imp fun {a b} hab x hx y hy => ?_
      obtain ⟨_, _, rfl⟩ := List.mem_map.mp hx
      obtain ⟨_, _, rfl⟩ := List.mem_map.mp hy
      exact hab
  rw [List.pairwise_map] at hplaces
  exact hplaces

theorem protocol_of_run (h : host.run files = .ok (after, calls)) :
    Protocol host.size files calls where
  sequence := sequence_of_run h
  phases := phases_of_run h
  once j hj := by
    have hg := List.getElem?_eq_getElem (l := host.generators) hj
    obtain ⟨g', alone, _, halone, hseen⟩ := callAll_isolated (run_eq_ok.mp h) hg
    have hhooks := congrArg (List.map Prod.snd) hseen
    rw [seen, seen, List.map_map, List.map_map] at hhooks
    exact hhooks.trans (hooks_callAll_alone halone)

theorem runAll_isolated (h : host.runAll batches = .ok (after, calls))
    (hg : host.generators[j]? = some g) :
    ∃ g' alone, after.generators[j]? = some g' ∧
      (ofList [g]).runAll batches = .ok (ofList [g'], alone) ∧
      seen (calls.filter (·.position = j)) = seen alone := by
  obtain ⟨g', alone, hafter, halone, hseen⟩ := callAll_isolated (runAll_eq_ok.mp h) hg
  refine ⟨g', alone, hafter, runAll_eq_ok.mpr ?_, hseen⟩
  rw [generators_ofList, generators_ofList]
  exact halone

theorem runAll_completes_iff :
    (∃ calls, host.runAll batches = .ok (after, calls)) ↔
      List.Forall₂ (fun g g' => Generator.serveAll batches g = .ok g')
        host.generators after.generators := by
  simp only [runAll_eq_ok, callAll_completes_iff, Generator.handleAll_flatMap_batch]

theorem runAll_completes (h : ∀ g ∈ gs, ∃ result, (ofList [g]).runAll batches = .ok result) :
    ∃ after calls, (ofList gs).runAll batches = .ok (after, calls) := by
  have hserve : ∀ g ∈ gs, ∃ g', Generator.serveAll batches g = .ok g' := by
    intro g hg
    obtain ⟨⟨after, calls⟩, halone⟩ := h g hg
    have hall := runAll_completes_iff.mp ⟨calls, halone⟩
    rw [generators_ofList, List.forall₂_cons_left_iff] at hall
    obtain ⟨g', _, hg', _⟩ := hall
    exact ⟨g', hg'⟩
  obtain ⟨after, hafter⟩ := forall₂_of_exists hserve
  refine ⟨ofList after, runAll_completes_iff.mpr ?_⟩
  rwa [generators_ofList, generators_ofList]

end Runs

structure Diary where
  hooks : List Hook := []

instance : Generator Diary where
  onInit g := { g with hooks := g.hooks ++ [.init] }
  onParse file g := .ok { g with hooks := g.hooks ++ [.parse file] }
  onCleanup g := { g with hooks := g.hooks ++ [.cleanup] }

def mixedGenerators : List (Retainer ⊕ Diary) := [.inr {}, .inl {}, .inr {}]

def mixedBatches : List (List SourceFile) := [[⟨"x", {}⟩, ⟨"y", {}⟩, ⟨"x", {}⟩], [], [⟨"y", {}⟩]]

def mixedDiary : Diary where
  hooks := [.init, .parse ⟨"x", {}⟩, .parse ⟨"y", {}⟩, .parse ⟨"x", {}⟩, .cleanup, .init, .cleanup,
    .init, .parse ⟨"y", {}⟩, .cleanup]

def mixedAfter : List (Retainer ⊕ Diary) :=
  [.inr mixedDiary, .inl ⟨[{}, {}, {}, {}]⟩, .inr mixedDiary]

end Host

end DeclTree
