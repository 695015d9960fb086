import DeclTree.Proofs.Header.Chain
import DeclTree.Proofs.Header.Prints

namespace DeclTree.Header

open Rendering

/-- Started after a text with `P`, the rendering leaves one with `Q` if it completes. -/
def Triple (P : List Char → Prop) (r : Rendering Unit) (Q : List Char → Prop) : Prop :=
  ∀ ⦃before chars⦄, P before → Prints r chars → Q (before ++ chars)

namespace Triple

variable {α : Type} {P Q R I : List Char → Prop} {r s : Rendering Unit} {t : String}
  {item : α → Rendering Unit} {xs : List α}

theorem done : Triple I (.done ()) I := by
  intro before chars h hr
  rw [Prints.done_iff.mp hr, List.append_nil]
  exact h

theorem fault (f : Fault) : Triple P (.fault f) Q := by
  rintro before chars h ⟨ho, -⟩
  cases ho

theorem text (h : ∀ before, P before → Q (before ++ t.toList)) : Triple P (text t) Q := by
  intro before chars hbefore hr
  rw [Prints.text_iff.mp hr]
  exact h before hbefore

theorem bind (hr : Triple P r Q) (hs : Triple Q s R) : Triple P (do r; s) R := by
  intro before chars hbefore h
  obtain ⟨a, b, ha, hb, rfl⟩ := Prints.bind_iff.mp h
  rw [← List.append_assoc]
  exact hs (hr hbefore ha) hb

theorem orFault {x : Except Fault α} {next : α → Rendering Unit}
    (h : ∀ value, x = .ok value → Triple P (next value) Q) :
    Triple P (orFault x >>= next) Q := by
  intro before chars hbefore hr
  obtain ⟨value, hx, hr⟩ := Prints.orFault_bind_iff.mp hr
  exact h value hx hbefore hr

theorem atTop {d : Nat} (h : d = 0 → Triple I r I) : Triple I (atTop d r) I := by
  unfold Header.atTop
  split
  · exact h ‹_›
  · exact done

theorem repeated (h : Triple I (Rendering.text t) I) (n : Nat) : Triple I (repeated t n) I := by
  induction n with
  | zero => exact done
  | succ n ih => exact h.bind ih

theorem forM (h : ∀ x ∈ xs, Triple I (item x) I) : Triple I (xs.forM item) I := by
  induction xs with
  | nil => exact done
  | cons x xs ih =>
    exact (h x (by simp)).bind (ih fun y hy => h y (List.mem_cons_of_mem x hy))

theorem separated {separator : String} (hseparator : Triple I (Rendering.text separator) I)
    (h : ∀ x ∈ xs, Triple I (item x) I) : Triple I (separated separator item xs) I := by
  induction xs with
  | nil => exact done
  | cons x xs ih =>
    cases xs with
    | nil => exact h x (by simp)
    | cons y xs =>
      have hrest := ih fun z hz => h z (List.mem_cons_of_mem x hz)
      exact (h x (by simp)).bind (hseparator.bind hrest)

theorem tag {tree : Tree} {inner : Renderer} {id : NodeId} {d l : Nat}
    (hname : ∀ node, tree.node id = .ok node → Triple I (Rendering.text node.name) I)
    (hopen : Triple I (Rendering.text "(") Q) (hcomma : Triple Q (Rendering.text ", ") Q)
    (hclose : Triple Q (Rendering.text ")") I)
    (hparameters : ∀ node ids, tree.node id = .ok node → node.payload = .tag ids →
      ∀ p ∈ ids, Triple Q (inner p (d + 1) l) Q) :
    Triple I (tag tree inner id d l) I := by
  refine orFault fun node hnode => (hname node hnode).bind ?_
  cases hp : node.payload with
  | tag ids =>
    cases ids with
    | nil => exact done
    | cons first rest =>
      have hids : Triple Q (parameters inner (first :: rest) d l) Q :=
        separated hcomma (hparameters node _ hnode hp)
      exact hopen.bind (hids.bind hclose)
  | _ => exact done

theorem chainWithin {tree : Tree} {node : NodeId → Rendering Unit}
    (h : ∀ id, Triple I (node id) I) (fuel : Nat) (id : NodeId) :
    Triple I (chainWithin tree node fuel id) I := by
  induction fuel generalizing id with
  | zero => exact fault .endless
  | succ fuel ih =>
    rw [chainWithin_succ]
    refine orFault fun n _ => (h id).bind ?_
    cases n.next with
    | none => exact done
    | some next => exact ih next

theorem emitText {tree : Tree} {options : Options} {id : NodeId} {follow : Bool} {s : String}
    (h : ∀ id, Triple I (unbounded tree options id 0 0) I) (hI : I [])
    (hs : emitText tree options id follow = .ok s) : I s.toList := by
  have hrender : Triple I (render tree options none id follow) I := by
    unfold render renderWithin
    split
    · exact chainWithin h _ id
    · exact h id
  exact hrender hI (Prints.of_toText_eq_ok hs)

end Triple

end DeclTree.Header
