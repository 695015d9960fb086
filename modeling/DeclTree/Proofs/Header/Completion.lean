import DeclTree.Proofs.Grounded
import DeclTree.Proofs.Header.Fuel
import DeclTree.Proofs.Queries

namespace DeclTree

namespace Header

open Rendering

variable {tree : Tree} {options : Options}

theorem completes_compatible (options : Options) :
    Compatible options Eq fun r _ => r.outcome = .ok () :=
  compatible_of_bind rfl (fun _ => rfl) fun h h' => by rw [outcome_bind, h]; exact h'

theorem outcome_unbounded (htyped : tree.Typed) {id : NodeId}
    (h : tree.Grounded options.tagComments id) :
    ∀ d l, (unbounded tree options id d l).outcome = .ok () := by
  refine h.induction (P := fun id => ∀ d l, (unbounded tree options id d l).outcome = .ok ()) ?_
  intro id h ih d l
  suffices h : (nodeWith tree options (unbounded tree options) id d l).outcome = .ok () by
    have htext := toText_unbounded tree options id d l
    rw [toText_eq_ok_iff.mpr ⟨h, rfl⟩] at htext
    exact (toText_eq_ok_iff.mp htext).1
  have hbelow : AgreeBelow tree options Eq (fun r _ => r.outcome = .ok ())
      (unbounded tree options) (unbounded tree options) id := by
    constructor
    · intro c hc f hf
      obtain ⟨node, hnode⟩ := Tree.exists_node (h.lt_size c hc)
      rw [hnode] at hf
      cases hf
    · intro c hc node type initial hnode hpayload f hf
      obtain ⟨usage, husage⟩ := htyped.typeUsageOf hnode hpayload
      rw [husage] at hf
      cases hf
    · intro c hc d l _ _ _
      exact ih c hc d l
  exact (completes_compatible options).nodeWith hbelow rfl

theorem emitText_of_acyclic (hclosed : tree.Closed) (htyped : tree.Typed)
    (hacyclic : options.tagComments = false ∨ tree.Acyclic true) {id : NodeId}
    (hid : id < tree.size) : ∃ text, emitText tree options id false = .ok text := by
  have hacyclic : tree.Acyclic options.tagComments := by
    cases htags : options.tagComments with
    | false => exact hclosed.acyclic
    | true => exact hacyclic.resolve_left (by simp [htags])
  refine ⟨(unbounded tree options id 0 0).written, ?_⟩
  rw [emitText_eq]
  exact toText_eq_ok_iff.mpr
    ⟨outcome_unbounded htyped (hacyclic.grounded hclosed hid) 0 0, rfl⟩

end Header

namespace Tree

structure Answers (tree : Tree) (id : NodeId) : Prop where
  value : ∃ value, tree.value id = .ok value
  children : ∃ ids, tree.children id = .ok ids
  findTag : ∀ name, ∃ found, tree.findTag id name = .ok found
  tagParameter : ∀ index, ∃ parameter, tree.tagParameter id index = .ok parameter
  declarationIsType : ∀ signature, ∃ answer, tree.declarationIsType id signature = .ok answer
  typeUsageOf : tree.HasType id .declaration → ∃ slot, tree.typeUsageOf id = .ok slot
  emitText : ∀ options : Header.Options, options.tagComments = false ∨ tree.Acyclic true →
    ∃ text, Header.emitText tree options id false = .ok text

theorem Closed.answers {tree : Tree} (hclosed : tree.Closed) (htyped : tree.Typed) {id : NodeId}
    (hid : id < tree.size) : tree.Answers id where
  value := (hclosed.grounded hid).value
  children := children_of_lt hid
  findTag := hclosed.findTag hid
  tagParameter := tagParameter_of_lt hid
  declarationIsType := htyped.declarationIsType hid
  typeUsageOf := htyped.typeUsageOf_of_hasType
  emitText _ hacyclic := Header.emitText_of_acyclic hclosed htyped hacyclic hid

/-- A run that passes existing nodes of the needed types ends with a tree that answers every query,
as long as there are positions for its nodes. The first node without a position is its only fault. -/
theorem build_answers {steps : List Step} (h : ({} : Tree).Along Fits steps) :
    if (steps.map Step.count).sum ≤ NodeId.max + 1 then
      ∃ tree, build steps = .ok tree ∧ tree.size = (steps.map Step.count).sum ∧ tree.Closed ∧
        ∀ id < tree.size, tree.Answers id
    else build steps = .error .tooManyNodes := by
  have hbuild := build_of_fits h
  split at hbuild
  case isTrue hcount =>
    obtain ⟨tree, hbuild, hsize, hclosed, htyped⟩ := hbuild
    rw [if_pos hcount]
    exact ⟨tree, hbuild, hsize, hclosed, fun id hid => hclosed.answers htyped hid⟩
  case isFalse hcount =>
    rw [if_neg hcount]
    exact hbuild

def taggedSteps : List Step :=
  [.identifier "limit", .namedType "int" 1 [0], .declaration "table" 1 none, .tag "packed" [],
    .attachTags 2 [3], .bindIdentifier 0 2, .struct (some "grid") [2], .resolveType 1 4,
    .pushRoot 4]

def tagged : Tree where
  nodes := #[{ payload := .identifier (some 2), text := some "limit" },
    { payload := .typeUsage ⟨1, [0], none, some 4⟩, text := some "int" },
    { payload := .declaration 1 none, text := some "table", tags := [3] },
    { payload := .tag [], text := some "packed" },
    { payload := .struct [2], text := some "grid" }]
  roots := [4]

theorem build_tagged : build taggedSteps = .ok tagged := by decide

theorem acyclic_tagged : tagged.Acyclic true := by
  have hfall : ∀ a < 5, ∀ node ∈ tagged.nodes[a]?, ∀ b ∈ node.payload.children ++ node.tags,
      [0, 1, 3, 2, 4].getD b 0 < [0, 1, 3, 2, 4].getD a 0 := by
    decide
  apply acyclic_of_rank fun id => [0, 1, 3, 2, 4].getD id 0
  rintro a b ⟨node, hnode, hb⟩
  apply hfall a (lt_size hnode) node (node_eq_ok_iff.mp hnode) b
  rw [List.mem_append]
  exact hb.imp_right And.right

theorem along_fits_identifiers (tree : Tree) (count : Nat) :
    tree.Along Fits (List.replicate count (.identifier "x")) := by
  induction count generalizing tree with
  | zero => exact trivial
  | succ count ih =>
    refine ⟨⟨nofun, trivial⟩, ?_⟩
    split
    · exact ih _
    · trivial

theorem build_answers_tagged :
    ({} : Tree).Along Fits taggedSteps ∧ tagged.Closed ∧ tagged.Answers 4 ∧
      (∃ text, Header.emitText tagged {} 4 false = .ok text) ∧
      build (List.replicate (NodeId.max + 2) (.identifier "x")) = .error .tooManyNodes := by
  have hfits : ({} : Tree).Along Fits taggedSteps := by decide
  have hrun := build_answers hfits
  rw [if_pos (by decide)] at hrun
  obtain ⟨tree, hbuild, _, hclosed, hanswers⟩ := hrun
  obtain rfl := Except.ok.inj (build_tagged.symm.trans hbuild)
  have hanswer := hanswers 4 (by decide)
  -- the number is kept a variable, since no list of that length can be computed with
  have hfull (count : Nat) (hcount : NodeId.max + 1 < count) :
      build (List.replicate count (.identifier "x")) = .error .tooManyNodes := by
    have hrun := build_answers (along_fits_identifiers {} count)
    have hsum : ((List.replicate count (Step.identifier "x")).map Step.count).sum = count := by
      simp [Step.count]
    rwa [hsum, if_neg (Nat.not_le.mpr hcount)] at hrun
  exact ⟨hfits, hclosed, hanswer, hanswer.emitText {} (.inr acyclic_tagged),
    hfull _ (Nat.lt_succ_self _)⟩

end Tree

end DeclTree
