import DeclTree.Proofs.Header.Comments
import DeclTree.Proofs.Header.Depth
import DeclTree.Proofs.Header.ExpressionText

namespace DeclTree

variable {tree : Tree} {id : NodeId} {node : Node} {e : Expression Atom}

theorem Expression.Describes.formula (h : e.Describes tree id) : tree.Formula id :=
  h.all_below fun _ _ he _ hnode => .inl (he.isExpression hnode)

namespace Header

open Rendering

variable {options : Options}

def directive (name body : String) : String := "#define " ++ name ++ " (" ++ body ++ ")"

theorem oneLine_directive {name body : String} (hname : OneLine name.toList) :
    OneLine (directive name body).toList ↔ OneLine body.toList := by
  have hopen : OneLine "#define ".toList ∧ OneLine " (".toList ∧ OneLine ")".toList := by decide
  simp only [directive, String.toList_append, oneLine_append, hname, hopen, true_and, and_true]

theorem oneLine_chars (h : e.Describes tree id)
    (hlines : tree.Below (fun node => OneLine node.name.toList) id) :
    OneLine (e.map Atom.text).chars := by
  induction h with
  | leaf hnode hatom =>
    have hname := hlines.self hnode
    rwa [(Node.of_atom?_eq_some hatom).2] at hname
  | @unary id operand node op e hnode hpayload _ ih =>
    have hoperand := ih (hlines.child hnode (by simp [hpayload, Payload.children]))
    have hop : OneLine op.spelling.toList := fun hc => absurd (op.spelling_subset hc) (by decide)
    change OneLine (['('] ++ (op.spelling.toList ++ ((e.map Atom.text).chars ++ [')'])))
    simp only [oneLine_append]
    exact ⟨by decide, hop, hoperand, by decide⟩
  | @binary id left right node op e e' hnode hpayload _ _ ihl ihr =>
    have hleft := ihl (hlines.child hnode (by simp [hpayload, Payload.children]))
    have hright := ihr (hlines.child hnode (by simp [hpayload, Payload.children]))
    have hop : OneLine op.spelling.toList := fun hc => absurd (op.spelling_subset hc) (by decide)
    change OneLine (['('] ++ ((e.map Atom.text).chars ++ ([' '] ++ (op.spelling.toList ++
      ([' '] ++ ((e'.map Atom.text).chars ++ [')']))))))
    simp only [oneLine_append]
    exact ⟨by decide, hleft, by decide, hop, by decide, hright, by decide⟩

section Tagged

variable {d l : Nat} {chars : List Char}

theorem tags_eq_nil_of_oneLine {inner : Renderer} (hshown : options.tagComments = true)
    (h : Prints (tagComment tree options inner node d l) chars) (hline : OneLine chars) :
    node.tags = [] := by
  by_contra htags
  have hcomment : (options.tagComments && !node.tags.isEmpty) = true := by simp [hshown, htags]
  rw [tagComment, if_pos hcomment] at h
  obtain ⟨_, _, -, htail, rfl⟩ := Prints.bind_iff.mp h
  obtain ⟨_, _, -, hend, rfl⟩ := Prints.bind_iff.mp htail
  obtain ⟨_, _, hbreak, -, rfl⟩ := Prints.bind_iff.mp hend
  rw [Prints.text_iff.mp hbreak] at hline
  simp [OneLine] at hline

theorem untagged_of_oneLine (hshown : options.tagComments = true)
    (hnode : tree.node id = .ok node) (h : Prints (unbounded tree options id d l) chars)
    (hline : OneLine chars) : node.tags = [] := by
  have h : Prints (nodeWith tree options (unbounded tree options) id d l) chars :=
    .of_toText (toText_unbounded tree options id d l).symm h
  obtain ⟨_, hnode', h⟩ := Prints.orFault_bind_iff.mp h
  obtain rfl := Except.ok.inj (hnode.symm.trans hnode')
  obtain ⟨_, _, hcomment, _, rfl⟩ := Prints.bind_iff.mp h
  exact tags_eq_nil_of_oneLine hshown hcomment (oneLine_append.mp hline).1

theorem tagless_of_oneLine (hshown : options.tagComments = true) (he : e.Describes tree id)
    (h : Prints (unbounded tree options id d l) chars) (hline : OneLine chars) :
    tree.Tagless id := by
  induction he generalizing d l chars with
  | leaf hnode hatom =>
    have htags := untagged_of_oneLine hshown hnode h hline
    refine .of_children hnode htags fun c hc => ?_
    rw [Payload.children_of_isLeaf (Node.of_atom?_eq_some hatom).1] at hc
    cases hc
  | unary hnode hpayload _ ih =>
    have htags := untagged_of_oneLine hshown hnode h hline
    have h := Prints.of_toText (toText_unbounded tree options _ d l).symm h
    simp only [nodeWith, hnode, orFault, done_bind, tagComment_of_plain (.inr htags), hpayload] at h
    obtain ⟨_, _, -, htail, rfl⟩ := Prints.bind_iff.mp h
    obtain ⟨_, _, hoperand, -, rfl⟩ := Prints.bind_iff.mp htail
    simp only [oneLine_append] at hline
    refine .of_children hnode htags fun c hc => ?_
    obtain rfl : c = _ := by simpa [hpayload, Payload.children] using hc
    exact ih hoperand hline.2.1
  | binary hnode hpayload _ _ ihl ihr =>
    have htags := untagged_of_oneLine hshown hnode h hline
    have h := Prints.of_toText (toText_unbounded tree options _ d l).symm h
    simp only [nodeWith, hnode, orFault, done_bind, tagComment_of_plain (.inr htags), hpayload] at h
    obtain ⟨_, _, -, htail, rfl⟩ := Prints.bind_iff.mp h
    obtain ⟨_, _, hleft, hsecond, rfl⟩ := Prints.bind_iff.mp htail
    obtain ⟨_, _, -, hthird, rfl⟩ := Prints.bind_iff.mp hsecond
    obtain ⟨_, _, hright, -, rfl⟩ := Prints.bind_iff.mp hthird
    simp only [oneLine_append] at hline
    refine .of_children hnode htags fun c hc => ?_
    obtain rfl | rfl : c = _ ∨ c = _ := by simpa [hpayload, Payload.children] using hc
    · exact ihl hleft hline.2.1
    · exact ihr hright hline.2.2.2.1

end Tagged

section Constants

variable {expression : NodeId}

theorem toText_constant (hnode : tree.node id = .ok node)
    (hpayload : node.payload = .constant expression) (he : tree.Formula expression) (d l : Nat) :
    (unbounded tree options id d l).toText = (do
      let comment ← (tagComment tree options (inside tree options) node 1 l).toText
      let body ← (unbounded tree options expression d l).toText
      return comment ++ (directive node.name body ++ "\n")) := by
  have hdepth : unbounded tree options expression (d + 1) l =
      unbounded tree options expression d l :=
    nodeWithin_of_formula _ he (d + 1) d l
  rw [toText_unbounded]
  unfold nodeWith
  rw [hnode]
  simp only [orFault, done_bind, hpayload]
  rw [alike_inside.tagComment node d 1 l, hdepth]
  simp only [toText_bind, toText_text]
  cases (tagComment tree options (inside tree options) node 1 l).toText with
  | error f => rfl
  | ok comment =>
    cases (unbounded tree options expression d l).toText with
    | error f => rfl
    | ok body =>
      have hend : ")\n" = ")" ++ "\n" := by decide
      change Except.ok (comment ++ ("#define " ++ node.name ++ " (" ++ (body ++ ")\n"))) =
        Except.ok (comment ++ ("#define " ++ node.name ++ " (" ++ body ++ ")" ++ "\n"))
      rw [hend]
      simp only [String.append_assoc]

/-- A constant is defined on one line, behind its own comment, exactly if no comment within its
expression breaks the line. Its emission is the case of depth and level zero. -/
theorem constant_on_one_line (options : Options) (hnode : tree.node id = .ok node)
    (hpayload : node.payload = .constant expression) (he : e.Describes tree expression)
    (hlines : tree.Below (fun node => OneLine node.name.toList) id) (d l : Nat) :
    (unbounded tree options id d l).toText = (do
      let comment ← (tagComment tree options (inside tree options) node 1 l).toText
      let body ← (unbounded tree options expression d l).toText
      return comment ++ (directive node.name body ++ "\n")) ∧
    ((∃ body, (unbounded tree options expression d l).toText = .ok body ∧
      OneLine (directive node.name body).toList) ↔
        options.tagComments = false ∨ tree.Tagless expression) := by
  refine ⟨toText_constant hnode hpayload he.formula d l, ?_, ?_⟩
  · rintro ⟨body, hbody, hline⟩
    rw [oneLine_directive (hlines.self hnode)] at hline
    cases hshown : options.tagComments with
    | false => exact .inl rfl
    | true => exact .inr (tagless_of_oneLine hshown he (Prints.of_toText_eq_ok hbody) hline)
  · intro htags
    have hbelow := hlines.child hnode (b := expression) (by simp [hpayload, Payload.children])
    refine ⟨_, (prints_expression he htags d l).toText, ?_⟩
    rw [oneLine_directive (hlines.self hnode), String.toList_ofList]
    exact oneLine_chars he hbelow

def taggedConstants : Tree where
  nodes := #[⟨.tag [], some "t", none, []⟩, ⟨.numericConstant, some "1", none, []⟩,
    ⟨.unary .negate 1, some "-", none, []⟩, ⟨.constant 2, some "K", none, [0]⟩,
    ⟨.numericConstant, some "1", none, [0]⟩, ⟨.constant 4, some "L", none, []⟩]

theorem constant_on_one_line_tagged :
    (Expression.unary .negate (.leaf (.numeric "1"))).Describes taggedConstants 2 ∧
    taggedConstants.Below (fun node => OneLine node.name.toList) 3 ∧
    emitText taggedConstants {} 3 false = .ok "// t\n#define K ((-1))\n" ∧
    ∃ body, emitText taggedConstants {} 2 false = .ok body ∧
      OneLine (directive "K" body).toList := by
  have he : (Expression.unary .negate (.leaf (.numeric "1"))).Describes taggedConstants 2 :=
    .unary rfl rfl (.leaf rfl rfl)
  have hlines : taggedConstants.Below (fun node => OneLine node.name.toList) 3 :=
    .of_closed [1, 2, 3] (by decide) (by decide)
  have htags : taggedConstants.Tagless 2 := .of_closed [1, 2] (by decide) (by decide)
  obtain ⟨htext, hline⟩ := constant_on_one_line {} rfl rfl he hlines 0 0
  exact ⟨he, hlines, htext, hline.mpr (.inr htags)⟩

theorem constant_on_two_lines :
    (∀ node ∈ taggedConstants.nodes, OneLine node.name.toList) ∧
    OneLine ({} : Options).indent.toList ∧
    taggedConstants.node 5 = .ok ⟨.constant 4, some "L", none, []⟩ ∧
    (Expression.leaf (.numeric "1")).Describes taggedConstants 4 ∧
    emitText taggedConstants {} 5 false = .ok "#define L (// t\n1)\n" ∧
    ¬ ∃ body, emitText taggedConstants {} 5 false = .ok (directive "L" body ++ "\n") ∧
      OneLine (directive "L" body).toList := by
  have htext : emitText taggedConstants {} 5 false = .ok "#define L (// t\n1)\n" := by rfl
  refine ⟨by decide, by decide, rfl, .leaf rfl rfl, htext, ?_⟩
  rintro ⟨body, hbody, hline⟩
  have hsame : directive "L" body ++ "\n" = "#define L (// t\n1)" ++ "\n" :=
    Except.ok.inj (hbody.symm.trans htext)
  have hchars : (directive "L" body).toList ++ ['\n'] = "#define L (// t\n1)".toList ++ ['\n'] := by
    simpa using congrArg String.toList hsame
  rw [List.append_cancel_right hchars] at hline
  exact absurd hline (by decide)

end Constants

end Header

end DeclTree
