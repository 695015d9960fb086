import Mathlib.Data.Finset.Card
import Mathlib.Logic.Relation
import DeclTree.Tree

namespace DeclTree.Tree

/-- From a node to the nodes it owns and, if `tags` holds, to the tags it carries. -/
def Edge (tree : Tree) (tags : Bool) (a b : NodeId) : Prop :=
  ∃ node, tree.node a = .ok node ∧ (b ∈ node.payload.children ∨ tags = true ∧ b ∈ node.tags)

def Acyclic (tree : Tree) (tags : Bool) : Prop :=
  ∀ id, ¬ Relation.TransGen (tree.Edge tags) id id

variable {tree : Tree} {tags : Bool} {a b : NodeId} {node : Node}

theorem edge_of_child (h : tree.node a = .ok node) (hb : b ∈ node.payload.children) :
    tree.Edge tags a b :=
  ⟨node, h, .inl hb⟩

def Below (tree : Tree) (p : Node → Prop) (id : NodeId) : Prop :=
  ∀ c node, Relation.ReflTransGen (tree.Edge false) id c → tree.node c = .ok node → p node

theorem Below.self {p : Node → Prop} (h : tree.Below p a) (hnode : tree.node a = .ok node) :
    p node :=
  h a node .refl hnode

theorem Below.child {p : Node → Prop} (h : tree.Below p a) (hnode : tree.node a = .ok node)
    (hb : b ∈ node.payload.children) : tree.Below p b :=
  fun c n hc hn => h c n (hc.head (edge_of_child hnode hb)) hn

theorem Below.of_children {p : Node → Prop} (hnode : tree.node a = .ok node) (hp : p node)
    (h : ∀ c ∈ node.payload.children, tree.Below p c) : tree.Below p a := by
  intro c n hpath hn
  rcases hpath.cases_head with rfl | ⟨b, ⟨node', hnode', hb | ⟨hfalse, -⟩⟩, hrest⟩
  · obtain rfl := Except.ok.inj (hnode.symm.trans hn)
    exact hp
  · obtain rfl := Except.ok.inj (hnode.symm.trans hnode')
    exact h b hb c n hrest hn
  · cases hfalse

theorem Below.of_closed {p : Node → Prop} (ids : List NodeId) (ha : a ∈ ids)
    (h : ∀ c ∈ ids, ∀ node ∈ tree.nodes[c]?, p node ∧ ∀ b ∈ node.payload.children, b ∈ ids) :
    tree.Below p a := by
  intro c node hc hnode
  suffices hids : c ∈ ids from (h c hids node (node_eq_ok_iff.mp hnode)).1
  clear hnode
  induction hc with
  | refl => exact ha
  | tail _ hedge ih =>
    obtain ⟨n, hn, hb | ⟨hfalse, -⟩⟩ := hedge
    · exact (h _ ih n (node_eq_ok_iff.mp hn)).2 _ hb
    · cases hfalse

theorem Below.of_forall_mem {p : Node → Prop} (h : ∀ node ∈ tree.nodes, p node) (id : NodeId) :
    tree.Below p id :=
  fun _ node _ hnode => h node (mem_nodes hnode)

theorem not_transGen_self {R : NodeId → NodeId → Prop} (rank : NodeId → Nat)
    (h : ∀ a b, R a b → rank b < rank a) (id : NodeId) : ¬ Relation.TransGen R id id := by
  have hfall : ∀ a b, Relation.TransGen R a b → rank b < rank a := by
    intro a b hab
    induction hab with
    | single he => exact h _ _ he
    | tail _ he ih => exact Nat.lt_trans (h _ _ he) ih
  exact fun hid => Nat.lt_irrefl _ (hfall id id hid)

theorem acyclic_of_rank (rank : NodeId → Nat)
    (h : ∀ a b, tree.Edge tags a b → rank b < rank a) : tree.Acyclic tags :=
  not_transGen_self rank h

section Founded

open Relation

variable {R S : NodeId → NodeId → Prop} {id c : NodeId}

/-- Every node that `R` leads to exists, and no node there leads to itself. -/
structure Founded (tree : Tree) (R : NodeId → NodeId → Prop) (id : NodeId) : Prop where
  lt_size : ∀ c, ReflTransGen R id c → c < tree.size
  acyclic : ∀ c, ReflTransGen R id c → ¬ TransGen R c c

noncomputable def below (tree : Tree) (R : NodeId → NodeId → Prop) (id : NodeId) : Finset NodeId :=
  open scoped Classical in (Finset.range tree.size).filter (TransGen R id)

namespace Founded

theorem of_lt (h : ∀ a b, R a b → b < a) (hid : id < tree.size) : tree.Founded R id where
  lt_size c hc := by
    induction hc with
    | refl => exact hid
    | tail _ he ih => exact Nat.lt_trans (h _ _ he) ih
  acyclic c _ := not_transGen_self (fun id => id) h c

theorem path (h : tree.Founded R id) (hc : ReflTransGen R id c) : tree.Founded R c where
  lt_size e he := h.lt_size e (hc.trans he)
  acyclic e he := h.acyclic e (hc.trans he)

theorem mono (h : tree.Founded R id) (hR : ∀ a b, S a b → R a b) : tree.Founded S id where
  lt_size c hc := h.lt_size c (ReflTransGen.mono hR _ _ hc)
  acyclic c hc hcycle := h.acyclic c (ReflTransGen.mono hR _ _ hc) (TransGen.mono hR _ _ hcycle)

theorem mem_below (h : tree.Founded R id) : c ∈ tree.below R id ↔ TransGen R id c := by
  simp only [below, Finset.mem_filter, Finset.mem_range, and_iff_right_iff_imp]
  intro hc
  exact h.lt_size c hc.to_reflTransGen

theorem card_below_lt (h : tree.Founded R id) (hc : TransGen R id c) :
    (tree.below R c).card < (tree.below R id).card := by
  have hpath := hc.to_reflTransGen
  apply Finset.card_lt_card
  refine (Finset.ssubset_iff_of_subset fun e he => ?_).mpr ⟨c, h.mem_below.mpr hc, fun hself => ?_⟩
  · exact h.mem_below.mpr (hc.trans ((h.path hpath).mem_below.mp he))
  · exact h.acyclic c hpath ((h.path hpath).mem_below.mp hself)

theorem card_below_lt_size (h : tree.Founded R id) : (tree.below R id).card < tree.size := by
  rw [← Finset.card_range tree.size]
  apply Finset.card_lt_card
  have hsub : tree.below R id ⊆ Finset.range tree.size := by
    classical exact Finset.filter_subset _ _
  refine (Finset.ssubset_iff_of_subset hsub).mpr ⟨id, ?_, fun hself => ?_⟩
  · exact Finset.mem_range.mpr (h.lt_size id .refl)
  · exact h.acyclic id .refl (h.mem_below.mp hself)

theorem induction {P : NodeId → Prop} (h : tree.Founded R id)
    (hstep : ∀ a, tree.Founded R a → (∀ b, TransGen R a b → P b) → P a) : P id := by
  induction hcard : (tree.below R id).card using Nat.strong_induction_on generalizing id with
  | _ card ih =>
    refine hstep id h fun c hc => ?_
    exact ih _ (hcard ▸ h.card_below_lt hc) (h.path hc.to_reflTransGen) rfl

end Founded

end Founded

theorem typeUsageOf_of_ok {slot : Node} {type : NodeId} {initial : Option NodeId}
    {usage : TypeUsage} (hnode : tree.node a = .ok node)
    (hpayload : node.payload = .declaration type initial) (hslot : tree.node type = .ok slot)
    (husage : slot.payload = .typeUsage usage) : tree.typeUsageOf a = .ok (type, usage) := by
  refine bind_eq_ok.mpr ⟨node, hnode, ?_⟩
  rw [hpayload]
  refine bind_eq_ok.mpr ⟨slot, hslot, ?_⟩
  rw [husage]
  rfl

theorem typeUsageOf_eq_ok {type : NodeId} {usage : TypeUsage}
    (h : tree.typeUsageOf a = .ok (type, usage)) :
    ∃ node initial slot, tree.node a = .ok node ∧ node.payload = .declaration type initial ∧
      tree.node type = .ok slot ∧ slot.payload = .typeUsage usage := by
  obtain ⟨node, hnode, h⟩ := bind_eq_ok.mp h
  cases hp : node.payload with
  | declaration slotId initial =>
    rw [hp] at h
    obtain ⟨slot, hslot, h⟩ := bind_eq_ok.mp h
    cases hu : slot.payload with
    | typeUsage u =>
      rw [hu] at h
      obtain ⟨rfl, rfl⟩ := Prod.mk.inj (Except.ok.inj h)
      exact ⟨node, initial, slot, hnode, hp, hslot, hu⟩
    | _ => rw [hu] at h; cases h
  | _ => rw [hp] at h; cases h

section Siblings

variable {id : NodeId} {limit : Nat} {ids : List NodeId}

theorem siblings_succ_eq_ok (h : tree.siblings (limit + 1) id = .ok ids) :
    ∃ node, tree.node id = .ok node ∧ (node.next = none ∧ ids = [id] ∨
      ∃ next rest, node.next = some next ∧ tree.siblings limit next = .ok rest ∧
        ids = id :: rest) := by
  obtain ⟨node, hnode, h⟩ := bind_eq_ok.mp h
  refine ⟨node, hnode, ?_⟩
  cases hnext : node.next with
  | none =>
    rw [hnext] at h
    exact .inl ⟨rfl, (Except.ok.inj h).symm⟩
  | some next =>
    rw [hnext] at h
    obtain ⟨rest, hrest, h⟩ := bind_eq_ok.mp h
    exact .inr ⟨next, rest, rfl, hrest, (Except.ok.inj h).symm⟩

def Chains (tree : Tree) : List NodeId → Prop
  | [] => True
  | id :: rest =>
    (∃ node, tree.node id = .ok node ∧ node.next = rest.head?) ∧ Chains tree rest

theorem Chains.siblings {rest : List NodeId} (h : tree.Chains (id :: rest)) (limit : Nat) :
    tree.siblings limit id = .ok ((id :: rest).take limit) := by
  induction rest generalizing id limit with
  | nil =>
    cases limit with
    | zero => rfl
    | succ limit =>
      obtain ⟨⟨node, hnode, hnext⟩, _⟩ := h
      refine bind_eq_ok.mpr ⟨node, hnode, ?_⟩
      rw [hnext]
      simp [pure, Except.pure]
  | cons next rest ih =>
    cases limit with
    | zero => rfl
    | succ limit =>
      obtain ⟨⟨node, hnode, hnext⟩, hrest⟩ := h
      refine bind_eq_ok.mpr ⟨node, hnode, ?_⟩
      rw [hnext]
      exact bind_eq_ok.mpr ⟨_, ih hrest limit, rfl⟩

end Siblings

end DeclTree.Tree
