import DeclTree.Proofs.Expression
import DeclTree.Proofs.Header.Fuel

namespace DeclTree.Header

open Rendering

def Plain (tree : Tree) (options : Options) (id : NodeId) (payload : Payload)
    (text : Option String) : Prop :=
  ∃ node, tree.node id = .ok node ∧ node.payload = payload ∧ node.text = text ∧
    (options.tagComments = false ∨ node.tags = [])

def Prints (r : Rendering Unit) (chars : List Char) : Prop :=
  r.outcome = .ok () ∧ r.written.toList = chars

namespace Prints

variable {r s : Rendering Unit} {a b : List Char}

theorem done : Prints (.done ()) [] := ⟨rfl, rfl⟩

theorem text (s : String) : Prints (Rendering.text s) s.toList := ⟨rfl, by simp⟩

theorem text_of_eq {s : String} {chars : List Char} (h : s.toList = chars) :
    Prints (Rendering.text s) chars :=
  h ▸ .text s

theorem bind (hr : Prints r a) (hs : Prints s b) : Prints (do r; s) (a ++ b) := by
  constructor
  · rw [outcome_bind, hr.1]
    exact hs.1
  · rw [written_bind_of_ok hr.1, String.toList_append, hr.2, hs.2]

theorem repeated (s : String) (n : Nat) :
    Prints (Rendering.repeated s n) (List.replicate n s.toList).flatten := by
  induction n with
  | zero => exact done
  | succ n ih => exact (text s).bind ih

theorem toText (h : Prints r a) : r.toText = .ok (String.ofList a) := by
  rw [toText_eq_ok_iff, ← h.2]
  exact ⟨h.1, String.ofList_toList.symm⟩

theorem of_toText_eq_ok {s : String} (h : r.toText = .ok s) : Prints r s.toList := by
  obtain ⟨ho, rfl⟩ := toText_eq_ok_iff.mp h
  exact ⟨ho, rfl⟩

theorem done_iff : Prints (.done ()) a ↔ a = [] := by
  constructor
  · rintro ⟨-, rfl⟩
    rfl
  · rintro rfl
    exact done

theorem text_iff {t : String} : Prints (Rendering.text t) a ↔ a = t.toList := by
  constructor
  · rintro ⟨-, rfl⟩
    simp
  · rintro rfl
    exact text t

theorem bind_iff : Prints (do r; s) a ↔ ∃ b c, Prints r b ∧ Prints s c ∧ a = b ++ c := by
  constructor
  · rintro ⟨ho, rfl⟩
    rw [outcome_bind] at ho
    obtain ⟨⟨⟩, hr, hs⟩ := bind_eq_ok.mp ho
    refine ⟨r.written.toList, s.written.toList, ⟨hr, rfl⟩, ⟨hs, rfl⟩, ?_⟩
    rw [written_bind_of_ok hr, String.toList_append]
  · rintro ⟨b, c, hr, hs, rfl⟩
    exact hr.bind hs

theorem orFault_bind_iff {α : Type} {x : Except Fault α} {next : α → Rendering Unit} :
    Prints (orFault x >>= next) a ↔ ∃ value, x = .ok value ∧ Prints (next value) a := by
  cases x with
  | error f => simp [orFault, Prints]
  | ok value => simp [orFault]

theorem of_toText (h : r.toText = s.toText) (hs : Prints s a) : Prints r a := by
  rw [hs.toText, toText_eq_ok_iff] at h
  exact ⟨h.1, by rw [h.2, String.toList_ofList]⟩

end Prints

variable {tree : Tree} {options : Options} {id : NodeId} {d l : Nat}

theorem prints_unbounded {chars : List Char}
    (h : Prints (nodeWith tree options (unbounded tree options) id d l) chars) :
    Prints (unbounded tree options id d l) chars :=
  .of_toText (toText_unbounded tree options id d l) h

theorem not_mem_toDigits {c : Char} (h : c.isDigit = false) (n : Nat) : c ∉ Nat.toDigits 10 n := by
  intro hc
  have hdigit := Nat.isDigit_of_mem_toDigits (by decide) (by decide) hc
  exact Bool.false_ne_true (h.symm.trans hdigit)

theorem atTop_succ (r : Rendering Unit) : atTop (d + 1) r = done () := if_neg (Nat.succ_ne_zero d)

theorem tagComment_of_plain {inner : Renderer} {node : Node}
    (h : options.tagComments = false ∨ node.tags = []) :
    tagComment tree options inner node d l = done () := by
  refine if_neg ?_
  rcases h with h | h <;> simp [h]

section Nodes

variable {inner : Renderer} {text : Option String}

theorem prints_leaf {payload : Payload} (hleaf : payload.isLeaf)
    (h : Plain tree options id payload text) :
    Prints (nodeWith tree options inner id d l) (text.getD "").toList := by
  obtain ⟨node, hnode, rfl, rfl, hplain⟩ := h
  simp only [nodeWith, hnode, orFault, done_bind, tagComment_of_plain hplain]
  cases hpayload : node.payload with
  | identifier | numericConstant | stringConstant | charConstant => exact .text node.name
  | _ => simp [hpayload, Payload.isLeaf] at hleaf

theorem prints_unary {op : UnaryOp} {operand : NodeId} {chars : List Char}
    (h : Plain tree options id (.unary op operand) text)
    (hoperand : Prints (inner operand (d + 1) l) chars) :
    Prints (nodeWith tree options inner id d l)
      ('(' :: (op.spelling.toList ++ (chars ++ [')']))) := by
  obtain ⟨node, hnode, hpayload, -, hplain⟩ := h
  simp only [nodeWith, hnode, orFault, done_bind, tagComment_of_plain hplain, hpayload]
  have hopen : Prints (Rendering.text ("(" ++ op.spelling)) ('(' :: op.spelling.toList) :=
    Prints.text_of_eq (by simp)
  exact hopen.bind (hoperand.bind (.text ")"))

theorem prints_binary {op : BinaryOp} {left right : NodeId} {chars chars' : List Char}
    (h : Plain tree options id (.binary op left right) text)
    (hleft : Prints (inner left d l) chars) (hright : Prints (inner right (d + 1) l) chars') :
    Prints (nodeWith tree options inner id d l)
      ('(' :: (chars ++ ' ' :: (op.spelling.toList ++ ' ' :: (chars' ++ [')'])))) := by
  obtain ⟨node, hnode, hpayload, -, hplain⟩ := h
  simp only [nodeWith, hnode, orFault, done_bind, tagComment_of_plain hplain, hpayload]
  have hop : Prints (Rendering.text (" " ++ op.spelling ++ " "))
      (' ' :: (op.spelling.toList ++ [' '])) :=
    Prints.text_of_eq (by simp)
  have h := (Prints.text "(").bind (hleft.bind (hop.bind (hright.bind (.text ")"))))
  simpa using h

end Nodes

end DeclTree.Header
