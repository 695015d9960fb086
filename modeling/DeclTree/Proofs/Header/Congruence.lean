import DeclTree.Header.Printer
import DeclTree.Proofs.Edges

namespace DeclTree.Header

open Rendering Relation

/-- A relation between renderings that passes from the parts to the whole. `near` relates the
places, each a depth and a level, at which two renderers are compared. -/
structure Compatible (options : Options) (near : Nat × Nat → Nat × Nat → Prop)
    (rel : Rendering Unit → Rendering Unit → Prop) : Prop where
  done : rel (.done ()) (.done ())
  text (s : String) : rel (text s) (text s)
  bind {r r' s s' : Rendering Unit} : rel r r' → rel s s' → rel (do r; s) (do r'; s')
  top {d l d' l'} : near (d, l) (d', l') → (d = 0 ↔ d' = 0)
  deeper {d l d' l'} : near (d, l) (d', l') → near (d + 1, l) (d' + 1, l')
  indented {d l d' l'} : near (d, l) (d', l') → near (d + 1, l + 1) (d' + 1, l' + 1)
  indentation {d l d' l'} : near (d, l) (d', l') →
    rel (indentation options l) (indentation options l')

def Agree (near : Nat × Nat → Nat × Nat → Prop) (rel : Rendering Unit → Rendering Unit → Prop)
    (inner inner' : Renderer) (id : NodeId) : Prop :=
  ∀ ⦃d l d' l'⦄, near (d, l) (d', l') → rel (inner id d l) (inner' id d' l')

structure AgreeBelow (tree : Tree) (options : Options) (near : Nat × Nat → Nat × Nat → Prop)
    (rel : Rendering Unit → Rendering Unit → Prop) (inner inner' : Renderer) (id : NodeId) :
    Prop where
  lookup : ∀ c, ReflTransGen (tree.Edge options.tagComments) id c →
    ∀ f, tree.node c = .error f → rel (.fault f) (.fault f)
  slot : ∀ c, ReflTransGen (tree.Edge options.tagComments) id c →
    ∀ node type initial, tree.node c = .ok node → node.payload = .declaration type initial →
      ∀ f, tree.typeUsageOf c = .error f → rel (.fault f) (.fault f)
  call : ∀ c, TransGen (tree.Edge options.tagComments) id c → Agree near rel inner inner' c

variable {tree : Tree} {options : Options} {near : Nat × Nat → Nat × Nat → Prop}
  {rel : Rendering Unit → Rendering Unit → Prop} {inner inner' : Renderer}
  {id : NodeId} {node : Node} {d l d' l' : Nat}

theorem AgreeBelow.step {c : NodeId} (h : AgreeBelow tree options near rel inner inner' id)
    (hc : tree.Edge options.tagComments id c) :
    AgreeBelow tree options near rel inner inner' c where
  lookup e he := h.lookup e (he.head hc)
  slot e he := h.slot e (he.head hc)
  call e he := h.call e (he.head hc)

theorem AgreeBelow.child {c : NodeId} (h : AgreeBelow tree options near rel inner inner' id)
    (hnode : tree.node id = .ok node) (hc : c ∈ node.payload.children) :
    Agree near rel inner inner' c :=
  h.call c (.single (Tree.edge_of_child hnode hc))

theorem orFault_rel {α : Type} {x : Except Fault α} {k k' : α → Rendering Unit}
    (herror : ∀ f, x = .error f → rel (.fault f) (.fault f))
    (hok : ∀ value, x = .ok value → rel (k value) (k' value)) :
    rel (orFault x >>= k) (orFault x >>= k') := by
  cases x with
  | error f => exact herror f rfl
  | ok value => exact hok value rfl

theorem compatible_of_bind (hdone : rel (.done ()) (.done ())) (htext : ∀ s, rel (text s) (text s))
    (hbind : ∀ {r r' s s' : Rendering Unit}, rel r r' → rel s s' → rel (do r; s) (do r'; s')) :
    Compatible options Eq rel where
  done := hdone
  text := htext
  bind := hbind
  top h := by rw [Prod.mk.inj h |>.1]
  deeper h := by obtain ⟨rfl, rfl⟩ := Prod.mk.inj h; rfl
  indented h := by obtain ⟨rfl, rfl⟩ := Prod.mk.inj h; rfl
  indentation {d l d' l'} h := by
    obtain ⟨rfl, rfl⟩ := Prod.mk.inj h
    induction l with
    | zero => exact hdone
    | succ l ih => exact hbind (htext _) (ih rfl)

theorem eq_compatible (options : Options) : Compatible options Eq Eq :=
  compatible_of_bind rfl (fun _ => rfl) fun h h' => by rw [h, h']

namespace Compatible

variable (compat : Compatible options near rel)
include compat

theorem atTop {r r' : Rendering Unit} (hp : near (d, l) (d', l')) (h : rel r r') :
    rel (atTop d r) (atTop d' r') := by
  unfold Header.atTop
  by_cases hd : d = 0
  · rwa [if_pos hd, if_pos ((compat.top hp).mp hd)]
  · rw [if_neg hd, if_neg (fun h => hd ((compat.top hp).mpr h))]
    exact compat.done

theorem repeated (s : String) (n : Nat) : rel (repeated s n) (repeated s n) := by
  induction n with
  | zero => exact compat.done
  | succ n ih => exact compat.bind (compat.text s) ih

theorem separated {α : Type} (separator : String) {item item' : α → Rendering Unit} {xs : List α}
    (h : ∀ x ∈ xs, rel (item x) (item' x)) :
    rel (separated separator item xs) (separated separator item' xs) := by
  induction xs with
  | nil => exact compat.done
  | cons x rest ih =>
    cases rest with
    | nil => exact h x (by simp)
    | cons y rest =>
      have hrest := ih (fun z hz => h z (List.mem_cons_of_mem x hz))
      exact compat.bind (h x (by simp)) (compat.bind (compat.text separator) hrest)

theorem forM {α : Type} {item item' : α → Rendering Unit} {xs : List α}
    (h : ∀ x ∈ xs, rel (item x) (item' x)) : rel (xs.forM item) (xs.forM item') := by
  induction xs with
  | nil => exact compat.done
  | cons x rest ih =>
    exact compat.bind (h x (by simp)) (ih (fun z hz => h z (List.mem_cons_of_mem x hz)))

theorem parameters {ids : List NodeId} (h : ∀ c ∈ ids, Agree near rel inner inner' c)
    (hp : near (d, l) (d', l')) :
    rel (parameters inner ids d l) (parameters inner' ids d' l') :=
  compat.separated ", " fun c hc => h c hc (compat.deeper hp)

theorem tag (h : AgreeBelow tree options near rel inner inner' id) (hp : near (d, l) (d', l')) :
    rel (tag tree inner id d l) (tag tree inner' id d' l') := by
  apply orFault_rel (h.lookup id .refl)
  intro node hnode
  apply compat.bind (compat.text node.name)
  have hchild := fun c => h.child (c := c) hnode
  cases hpayload : node.payload with
  | tag ids =>
    rw [hpayload] at hchild
    cases ids with
    | nil => exact compat.done
    | cons first rest =>
      exact compat.bind (compat.text "(")
        (compat.bind (compat.parameters hchild hp) (compat.text ")"))
  | _ => exact compat.done

theorem tagComment (h : AgreeBelow tree options near rel inner inner' id)
    (hnode : tree.node id = .ok node) (hp : near (d, l) (d', l')) :
    rel (tagComment tree options inner node d l) (tagComment tree options inner' node d' l') := by
  unfold Header.tagComment
  split
  · rename_i hshown
    have htags : options.tagComments = true := (Bool.and_eq_true_iff.mp hshown).1
    apply compat.bind (compat.text "// ")
    refine compat.bind (compat.separated " " fun t ht => ?_)
      (compat.bind (compat.text "\n") (compat.indentation hp))
    exact compat.tag (h.step ⟨node, hnode, .inr ⟨htags, ht⟩⟩) hp
  · exact compat.done

theorem typedefLine (keyword : String) (name : Option String) :
    rel (typedefLine keyword name) (typedefLine keyword name) := by
  cases name with
  | none => exact compat.done
  | some name => exact compat.text _

theorem heading (keyword : String) (name : Option String) :
    rel (heading keyword name) (heading keyword name) := by
  cases name <;> exact compat.text _

theorem items {ids : List NodeId} (ending : String)
    (h : ∀ c ∈ ids, Agree near rel inner inner' c) (hp : near (d, l) (d', l')) :
    rel (items options inner ending ids d l) (items options inner' ending ids d' l') :=
  compat.forM fun c hc =>
    compat.bind (compat.indentation hp) (compat.bind (h c hc hp) (compat.text ending))

theorem braced {ids : List NodeId} (keyword : String) (name : Option String) (ending : String)
    (h : ∀ c ∈ ids, Agree near rel inner inner' c) (hp : near (d, l) (d', l')) :
    rel (braced options inner keyword name ids ending d l)
      (braced options inner' keyword name ids ending d' l') := by
  apply compat.bind (compat.atTop hp (compat.typedefLine keyword name))
  apply compat.bind (compat.heading keyword name)
  apply compat.bind (compat.indentation hp)
  apply compat.bind (compat.text _)
  apply compat.bind (compat.items ending h (compat.indented hp))
  apply compat.bind (compat.indentation hp)
  exact compat.bind (compat.text _) (compat.atTop hp (compat.text _))

theorem masks {ids : List NodeId} (wide : Bool) (bit : Nat)
    (h : ∀ c ∈ ids, AgreeBelow tree options near rel inner inner' c)
    (hp : near (d, l) (d', l')) :
    rel (masks tree options inner wide d l bit ids)
      (masks tree options inner' wide d' l' bit ids) := by
  induction ids generalizing bit with
  | nil => exact compat.done
  | cons c rest ih =>
    have hc := h c (by simp)
    apply orFault_rel (hc.lookup c .refl)
    intro flag hflag
    apply compat.bind (compat.tagComment hc hflag hp)
    exact compat.bind (compat.text _) (ih (bit + 1) fun e he => h e (List.mem_cons_of_mem c he))

theorem flags {ids : List NodeId} (name : Option String)
    (h : ∀ c ∈ ids, AgreeBelow tree options near rel inner inner' c)
    (hp : near (d, l) (d', l')) :
    rel (flags tree options inner name ids d l) (flags tree options inner' name ids d' l') := by
  apply compat.bind (compat.masks _ 0 h (compat.deeper hp))
  cases name with
  | none => exact compat.done
  | some name => exact compat.text _

theorem initializer {initial : Option NodeId}
    (h : ∀ c ∈ initial.toList, Agree near rel inner inner' c) (hp : near (d, l) (d', l')) :
    rel (initializer inner d l initial) (initializer inner' d' l' initial) := by
  cases initial with
  | none => exact compat.done
  | some c => exact compat.bind (compat.text _) (h c (by simp) (compat.deeper hp))

theorem declaration {type : NodeId} {initial : Option NodeId}
    (h : AgreeBelow tree options near rel inner inner' id) (hnode : tree.node id = .ok node)
    (hpayload : node.payload = .declaration type initial) (hp : near (d, l) (d', l')) :
    rel (declaration tree inner id node.name initial d l)
      (declaration tree inner' id node.name initial d' l') := by
  have hchild := fun c => h.child (c := c) hnode
  rw [hpayload] at hchild
  apply orFault_rel (h.slot id .refl node type initial hnode hpayload)
  rintro ⟨slotId, usage⟩ hslot
  obtain ⟨node', initial', slot, hnode', hpayload', hslotNode, husage⟩ :=
    Tree.typeUsageOf_eq_ok hslot
  obtain rfl : node = node' := Except.ok.inj (hnode.symm.trans hnode')
  obtain ⟨rfl, rfl⟩ := Payload.declaration.inj (hpayload.symm.trans hpayload')
  have hsizes : ∀ c ∈ usage.arraySizes, Agree near rel inner inner' c := by
    intro c hc
    have hedge : tree.Edge options.tagComments id type :=
      Tree.edge_of_child hnode (by simp [hpayload, Payload.children])
    exact (h.step hedge).child hslotNode (by simp [husage, Payload.children, hc])
  apply compat.bind (hchild type (by simp [Payload.children]) hp)
  apply compat.bind (compat.text _)
  apply compat.bind
  · exact compat.forM fun c hc =>
      compat.bind (compat.text "[") (compat.bind (hsizes c hc hp) (compat.text "]"))
  · refine compat.atTop hp (compat.bind (compat.initializer ?_ hp) (compat.text _))
    exact fun c hc => hchild c (List.mem_cons_of_mem type hc)

theorem typeUsage {usage : TypeUsage} (name : String)
    (h : ∀ c ∈ (Payload.typeUsage usage).children, Agree near rel inner inner' c)
    (hp : near (d, l) (d', l')) :
    rel (typeUsage inner name usage d l) (typeUsage inner' name usage d' l') := by
  apply compat.bind _ (compat.bind (compat.text _) (compat.repeated _ _))
  cases haggregate : usage.inlineAggregate with
  | none => exact compat.text _
  | some c => exact h c (by simp [Payload.children, haggregate]) (compat.deeper hp)

theorem procedure {returnType : Option NodeId} {ids : List NodeId} (name : String)
    (h : ∀ c ∈ (Payload.procedure returnType ids).children, Agree near rel inner inner' c)
    (hp : near (d, l) (d', l')) :
    rel (procedure inner name returnType ids d l) (procedure inner' name returnType ids d' l') := by
  apply compat.bind
  · cases returnType with
    | none => exact compat.text _
    | some type => exact h type (by simp [Payload.children]) (compat.deeper hp)
  apply compat.bind (compat.text _)
  apply compat.bind _ (compat.text _)
  cases ids with
  | nil => exact compat.text _
  | cons first rest =>
    exact compat.parameters (fun c hc => h c (List.mem_append_right _ hc)) hp

theorem nodeWith (h : AgreeBelow tree options near rel inner inner' id)
    (hp : near (d, l) (d', l')) :
    rel (nodeWith tree options inner id d l) (nodeWith tree options inner' id d' l') := by
  apply orFault_rel (h.lookup id .refl)
  intro node hnode
  apply compat.bind (compat.tagComment h hnode hp)
  have hchild := fun c => h.child (c := c) hnode
  cases hpayload : node.payload with
  | identifier _ | numericConstant | stringConstant | charConstant => exact compat.text _
  | unary op operand =>
    rw [hpayload] at hchild
    have hoperand := hchild operand (by simp [Payload.children]) (compat.deeper hp)
    exact compat.bind (compat.text _) (compat.bind hoperand (compat.text _))
  | binary op left right =>
    rw [hpayload] at hchild
    have hleft := hchild left (by simp [Payload.children]) hp
    have hright := hchild right (by simp [Payload.children]) (compat.deeper hp)
    exact compat.bind (compat.text _) (compat.bind hleft
      (compat.bind (compat.text _) (compat.bind hright (compat.text _))))
  | struct ids | union ids | enumeration ids =>
    rw [hpayload] at hchild
    exact compat.braced _ _ _ hchild hp
  | flags ids =>
    refine compat.flags node.text (fun c hc => h.step (Tree.edge_of_child hnode ?_)) hp
    rwa [hpayload]
  | declaration type initial => exact compat.declaration h hnode hpayload hp
  | typeUsage usage =>
    rw [hpayload] at hchild
    exact compat.typeUsage node.name hchild hp
  | tag ids => exact compat.tag h hp
  | constant expression =>
    rw [hpayload] at hchild
    have hexpression := hchild expression (by simp [Payload.children]) (compat.deeper hp)
    exact compat.bind (compat.text _) (compat.bind hexpression (compat.text _))
  | procedure returnType ids =>
    rw [hpayload] at hchild
    exact compat.procedure node.name hchild hp

end Compatible

end DeclTree.Header
