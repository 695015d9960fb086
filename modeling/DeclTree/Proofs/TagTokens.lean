import DeclTree.Proofs.WholeWords
import DeclTree.Queries

namespace DeclTree

namespace Text

def tokens (text : List Char) : List (List Char) :=
  (text.splitOnP (!wordChar ·)).filter (!·.isEmpty)

theorem mem_tokens_iff {t text : List Char} (hne : t ≠ []) (ht : ∀ c ∈ t, wordChar c) :
    t ∈ tokens text ↔ ∃ p q, text = p ++ (t ++ q) ∧ Apart p t ∧ Apart t q := by
  have hhead : t.head?.any wordChar := by
    obtain ⟨c, t, rfl⟩ := List.exists_cons_of_ne_nil hne
    exact ht c List.mem_cons_self
  have hlast : t.getLast?.any wordChar := by
    obtain ⟨t, c, rfl⟩ := (List.eq_nil_or_concat' t).resolve_left hne
    simpa using ht c (by simp)
  have hbefore (p : List Char) : Apart p t ↔ ∀ x ∈ p.getLast?, (!wordChar x) = true := by
    unfold Apart
    cases p.getLast? <;> simp_all
  have hafter (q : List Char) : Apart t q ↔ ∀ x ∈ q.head?, (!wordChar x) = true := by
    unfold Apart
    cases q.head? <;> simp_all
  rw [tokens, List.mem_filter, and_iff_left (by simpa using hne)]
  constructor
  · intro h
    obtain ⟨p, q, rfl, -, hp, hq⟩ := exists_append_of_mem_splitOnP h
    exact ⟨p, q, rfl, (hbefore p).mpr hp, (hafter q).mpr hq⟩
  · rintro ⟨p, q, rfl, hp, hq⟩
    exact mem_splitOnP_append (by simpa using ht) ((hbefore p).mp hp) ((hafter q).mp hq)

theorem hasWord_iff_mem_tokens {name : String} (hne : name ≠ "")
    (hname : ∀ c ∈ name.toList, wordChar c) (hay : String) :
    hasWord hay name ↔ name.toList ∈ tokens hay.toList := by
  have hne' : name.toList ≠ [] := by simpa using hne
  rw [hasWord_iff, mem_tokens_iff hne' hname, and_iff_right hne]

end Text

def Node.tokens (node : Node) : List (List Char) := node.text.elim [] (Text.tokens ·.toList)

namespace Tree

def tokens (tree : Tree) (id : NodeId) : List (List Char) := (tree.get? id).elim [] Node.tokens

section Tags

variable {tree : Tree} {id : NodeId} {node : Node} {name : String} (hne : name ≠ "")
  (hname : ∀ c ∈ name.toList, Text.wordChar c)
include hne hname

theorem any_hasWord_eq (node : Node) :
    node.text.any (Text.hasWord · name) = decide (name.toList ∈ node.tokens) := by
  rw [Bool.eq_iff_iff, decide_eq_true_iff, Node.tokens]
  cases node.text with
  | none => simp
  | some text => exact Text.hasWord_iff_mem_tokens hne hname text

theorem firstTag_eq_find? {tags : List NodeId}
    (htags : ∀ tag ∈ tags, ∃ node, tree.node tag = .ok node) :
    tree.firstTag name tags = .ok (tags.find? (name.toList ∈ tree.tokens ·)) := by
  induction tags with
  | nil => rfl
  | cons tag tags ih =>
    obtain ⟨node, hnode⟩ := htags tag List.mem_cons_self
    have htokens : tree.tokens tag = node.tokens := by
      rw [Tree.tokens, get?, node_eq_ok_iff.mp hnode, Option.elim_some]
    have hrest := ih fun t ht => htags t (List.mem_cons_of_mem tag ht)
    rw [firstTag, hnode]
    change (if node.text.any (Text.hasWord · name) then _ else tree.firstTag name tags) = _
    rw [any_hasWord_eq hne hname, hrest, List.find?_cons, htokens]
    cases decide (name.toList ∈ node.tokens) <;> rfl

end Tags

theorem findTag_by_tokens {tree : Tree} {id : NodeId} {node : Node} {name : String}
    (hnode : tree.node id = .ok node) (htags : ∀ tag ∈ node.tags, ∃ node, tree.node tag = .ok node)
    (hne : name ≠ "") (hname : ∀ c ∈ name.toList, Text.wordChar c) :
    tree.findTag id name = .ok (node.tags.find? (name.toList ∈ tree.tokens ·)) ∧
    (tree.findTag id name = .ok none ↔ ∀ tag ∈ node.tags, name.toList ∉ tree.tokens tag) ∧
    tree.hasTag id name = .ok (node.tags.any (name.toList ∈ tree.tokens ·)) ∧
    ∀ hay : String, Text.hasWord hay name ↔ name.toList ∈ Text.tokens hay.toList := by
  have hfind : tree.findTag id name = .ok (node.tags.find? (name.toList ∈ tree.tokens ·)) := by
    rw [findTag, hnode]
    exact firstTag_eq_find? hne hname htags
  refine ⟨hfind, ?_, ?_, Text.hasWord_iff_mem_tokens hne hname⟩
  · rw [hfind]
    simp
  · rw [hasTag, hfind]
    change Except.ok _ = _
    rw [List.isSome_find?]

def searchedTree : Tree where
  nodes := #[⟨.tag [], some "foobar", none, []⟩, ⟨.struct [], none, none, []⟩,
    ⟨.tag [], some "größe:foo", none, []⟩, ⟨.identifier none, some "x", none, [0, 1, 2, 2]⟩]

theorem findTag_by_tokens_third :
    (∀ tag ∈ [0, 1, 2, 2], ∃ node, searchedTree.node tag = .ok node) ∧
    searchedTree.findTag 3 "foo" = .ok (some 2) ∧ searchedTree.hasTag 3 "foo" = .ok true := by
  have htags : ∀ tag ∈ [0, 1, 2, 2], ∃ node, searchedTree.node tag = .ok node := by
    simp only [List.forall_mem_cons]
    exact ⟨⟨_, rfl⟩, ⟨_, rfl⟩, ⟨_, rfl⟩, ⟨_, rfl⟩, nofun⟩
  have hnode : searchedTree.node 3 = .ok ⟨.identifier none, some "x", none, [0, 1, 2, 2]⟩ := rfl
  have hname : ∀ c ∈ "foo".toList, Text.wordChar c := List.all_eq_true.mp (by decide)
  obtain ⟨hfind, -, hhas, -⟩ := findTag_by_tokens hnode htags (by decide) hname
  exact ⟨htags, hfind.trans rfl, hhas.trans rfl⟩

end Tree

end DeclTree
