import DeclTree.Proofs.Build.Linked
import DeclTree.Proofs.Header.Chain

namespace DeclTree

namespace Tree

variable {tree : Tree} {slot : Slot}

theorem Linked.chains (h : tree.Linked) {front rest : List NodeId}
    (hlist : tree.list slot = front ++ rest) : tree.Chains rest := by
  induction rest generalizing front with
  | nil => trivial
  | cons id rest ih =>
    have hid : id ∈ tree.list slot := by simp [hlist]
    obtain ⟨node, hnode⟩ := exists_node (h.lt_size slot id hid)
    constructor
    · refine ⟨node, hnode, ?_⟩
      have hnext := h.next id node slot hnode fun other hother => h.disjoint id other slot hother hid
      have hnodup := h.nodup slot
      rw [hlist] at hnext hnodup
      rw [hnext, follow_of_nodup hnodup]
    · apply ih
      rw [hlist, List.append_cons]

theorem Linked.length_le (h : tree.Linked) (slot : Slot) : (tree.list slot).length ≤ tree.size := by
  have hsub : tree.list slot ⊆ List.range tree.size := by
    intro id hid
    exact List.mem_range.mpr (h.lt_size slot id hid)
  have hle := (List.subperm_of_subset (h.nodup slot) hsub).length_le
  rwa [List.length_range] at hle

end Tree

namespace Header

open Rendering

variable {tree : Tree} {options : Options} {node : NodeId → Rendering Unit} {id : NodeId}

theorem toText_chain {rest : List NodeId} {fuel : Nat} (h : tree.Chains (id :: rest))
    (hfuel : rest.length < fuel) :
    (chainWithin tree node fuel id).toText =
      ((id :: rest).mapM fun id => (node id).toText).map String.join := by
  induction rest generalizing id fuel with
  | nil =>
    obtain ⟨fuel, rfl⟩ : ∃ n, fuel = n + 1 := ⟨fuel - 1, by omega⟩
    obtain ⟨⟨n, hn, hnext⟩, _⟩ := h
    rw [chainWithin_of_last hn hnext]
    cases htext : (node id).toText with
    | error f => simp [htext, bind, Except.bind, Except.map]
    | ok text => simp [htext, bind, Except.bind, Except.map, pure, Except.pure]
  | cons next rest ih =>
    obtain ⟨fuel, rfl⟩ : ∃ n, fuel = n + 1 := ⟨fuel - 1, by omega⟩
    obtain ⟨⟨n, hn, hnext⟩, hrest⟩ := h
    have hlength : rest.length < fuel := by simpa using hfuel
    rw [chainWithin_of_next hn hnext, toText_bind, ih hrest hlength, List.mapM_cons (a := id)]
    cases (node id).toText with
    | error f => rfl
    | ok text =>
      cases (next :: rest).mapM fun id => (node id).toText with
      | error f => rfl
      | ok texts =>
        change Except.ok (text ++ String.join texts) = Except.ok (String.join (text :: texts))
        rw [String.join_cons]

def bannerText (options : Options) : String :=
  (options.banner.map fun banner => "/* " ++ banner ++ " */\n\n").getD ""

theorem toText_banner : (banner options).toText = .ok (bannerText options) := by
  unfold banner bannerText
  cases options.banner with
  | none => rfl
  | some banner => exact toText_text _

theorem compile_eq (h : tree.Linked) :
    compile tree options =
      (tree.roots.mapM (emitText tree options · false)).map fun texts =>
        bannerText options ++ String.join texts := by
  have hlist : tree.list .roots = [] ++ tree.roots := rfl
  have hchains : tree.Chains tree.roots := h.chains hlist
  have hlength : tree.roots.length ≤ tree.size := h.length_le .roots
  have hfuel := size_lt_fuelFor tree none
  rw [compile, document, toText_bind, toText_banner, Tree.firstRoot]
  cases hroots : tree.roots with
  | nil => rfl
  | cons root rest =>
    rw [hroots] at hchains hlength
    have hrest : rest.length < fuelFor tree none := by
      rw [List.length_cons] at hlength
      omega
    change (do
      let t ← (chainWithin tree (unbounded tree options · 0 0) (fuelFor tree none) root).toText
      return bannerText options ++ t) = _
    rw [toText_chain hchains hrest]
    change _ = ((root :: rest).mapM fun id => (unbounded tree options id 0 0).toText).map _
    cases (root :: rest).mapM fun id => (unbounded tree options id 0 0).toText <;> rfl

end Header

namespace Tree

/-- The lists of a tree that a run builds and the links between its nodes tell the same, if no node
is listed twice. -/
theorem build_linked {tree : Tree} {steps : List Step} (h : build steps = .ok tree)
    (hpasses : ({} : Tree).Along Passes steps) (hnodup : (Step.listedAlong 0 steps).Nodup) :
    tree.roots = steps.flatMap Step.rooted ∧
    (∀ id, tree.tagsAt id = steps.flatMap (Step.attached id)) ∧
    (∀ slot, tree.list slot = Step.growthAlong slot 0 steps) ∧
    (∀ slot id rest, tree.list slot = id :: rest → ∀ limit,
      tree.siblings limit id = .ok ((id :: rest).take limit)) ∧
    ∀ options, Header.compile tree options =
      (tree.roots.mapM (Header.emitText tree options · false)).map fun texts =>
        Header.bannerText options ++ String.join texts := by
  have hnew : ∀ id ∈ Step.listedAlong 0 steps, ∀ slot, id ∉ ({} : Tree).list slot := by
    intro id _ slot
    cases slot <;> exact List.not_mem_nil
  have hlinked : tree.Linked := linked_empty.performAll hpasses hnodup hnew h
  have hlists := list_build hpasses h
  refine ⟨(hlists .roots).trans (Step.growthAlong_roots 0 steps),
    fun id => (hlists (.tags id)).trans (Step.growthAlong_tags 0 steps), hlists, ?_, ?_⟩
  · intro slot id rest hlist limit
    have hlist : tree.list slot = [] ++ id :: rest := hlist
    exact Chains.siblings (hlinked.chains hlist) limit
  · intro options
    exact Header.compile_eq hlinked

def mixedSteps : List Step :=
  [.numeric "4", .namedType "int" 0 [0], .declaration "x" 1 none, .tag "a" [], .attachTags 2 [3],
    .namedType "int" 0 [], .declaration "y" 4 none, .tag "b" [], .struct (some "s") [2, 5],
    .pushRoot 7, .attachTags 2 [6], .enumeration "e" ["A", "B"], .pushRoot 10]

theorem build_linked_mixed :
    ∃ tree, build mixedSteps = .ok tree ∧ tree.roots = [7, 10] ∧ tree.tagsAt 2 = [3, 6] ∧
      tree.list (.payload 7) = [2, 5] ∧ tree.list (.payload 10) = [8, 9] ∧
      tree.siblings 9 2 = .ok [2, 5] ∧ tree.siblings 9 3 = .ok [3, 6] ∧
      tree.siblings 9 8 = .ok [8, 9] ∧ tree.siblings 9 7 = .ok [7, 10] ∧
      Header.compile tree {} = ([7, 10].mapM (Header.emitText tree {} · false)).map fun texts =>
        Header.bannerText {} ++ String.join texts := by
  obtain ⟨tree, hbuild⟩ : ∃ tree, build mixedSteps = .ok tree := ⟨_, rfl⟩
  obtain ⟨hroots, htags, hgrowth, hlists, hcompile⟩ :=
    build_linked hbuild (by decide) (by decide)
  have hroots : tree.roots = [7, 10] := hroots
  have htags : tree.tagsAt 2 = [3, 6] := htags 2
  have hmembers : tree.list (.payload 7) = [2, 5] := hgrowth (.payload 7)
  have hconstants : tree.list (.payload 10) = [8, 9] := hgrowth (.payload 10)
  refine ⟨tree, hbuild, hroots, htags, hmembers, hconstants, hlists _ 2 [5] hmembers 9, hlists (.tags 2) 3 [6] htags 9,
    hlists _ 8 [9] hconstants 9, hlists .roots 7 [10] hroots 9, ?_⟩
  rw [← hroots]
  exact hcompile {}

end Tree

end DeclTree
