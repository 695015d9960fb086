import DeclTree.Proofs.Header.Schema

namespace DeclTree.Header

open Rendering

variable {tree : Tree} {options : Options} {id : NodeId} {d l : Nat}

theorem prints_size {size : Expression Word} (h : DescribesSize tree options id size) (d l : Nat) :
    Prints (unbounded tree options id d l) (size.map Word.text).chars := by
  obtain ⟨e, he, htags, hsize⟩ := h
  rw [← hsize]
  exact prints_expression he htags d l

theorem prints_dimensions {ids : List NodeId} {sizes : List (Expression Word)}
    (h : List.Forall₂ (DescribesSize tree options) ids sizes) (d l : Nat) :
    Prints (ids.forM (dimension (unbounded tree options) d l)) (dimensions sizes) := by
  induction h with
  | nil => exact .done
  | cons hsize _ ih =>
    have hfirst := (Prints.text "[").bind ((prints_size hsize d l).bind (.text "]"))
    have h := Prints.bind hfirst ih
    simp only [List.append_assoc] at h
    exact h

theorem prints_declaration {type : NodeId} {usage : TypeUsage} {text : Option String}
    {declarator : Declarator} {base : List Char}
    (h : declarator.Describes tree options id type usage text)
    (hbase : Prints (Header.base (unbounded tree options) (text.getD "") (d + 1) l
      usage.inlineAggregate) base) :
    Prints (unbounded tree options id (d + 1) l) (base ++ ' ' :: declarator.chars) := by
  obtain ⟨⟨initial, node, hnode, hpayload, htext, hplain⟩, hslot, hpointers, hsizes⟩ := h
  obtain ⟨slot, hslotNode, husage, hslotText, hslotPlain⟩ := hslot
  have htype : Prints (unbounded tree options type (d + 1) l)
      (base ++ ' ' :: List.replicate declarator.pointers '*') := by
    apply prints_unbounded
    simp only [nodeWith, hslotNode, orFault, done_bind, tagComment_of_plain hslotPlain, husage,
      Node.name, hslotText, typeUsage]
    have hmarkers := Prints.repeated "*" usage.pointerCount
    have h := hbase.bind ((Prints.text " ").bind hmarkers)
    simpa [hpointers] using h
  have hlookup : tree.typeUsageOf id = .ok (type, usage) :=
    Tree.typeUsageOf_of_ok hnode hpayload hslotNode husage
  apply prints_unbounded
  -- below the top level no initializer follows
  simp only [nodeWith, hnode, orFault, done_bind, tagComment_of_plain hplain, hpayload, Node.name,
    htext, declaration, hlookup, atTop_succ]
  have hname : Prints (Rendering.text declarator.name.text) declarator.name.chars := .text _
  have h := htype.bind (hname.bind ((prints_dimensions hsizes (d + 1) l).bind .done))
  simpa [Declarator.chars] using h

theorem prints_margin (options : Options) (level : Nat) :
    Prints (indentation options level) (margin options.indent.toList level) :=
  .repeated options.indent level

theorem prints_heading (kind : Aggregate) (name : Option Word) :
    Prints (heading kind.keyword (name.map Word.text)) (kind.heading name) := by
  cases name with
  | none => exact Prints.text_of_eq (by simp [Aggregate.heading])
  | some name => exact Prints.text_of_eq (by simp [Aggregate.heading, Word.chars])

theorem prints_alias (kind : Aggregate) (name : Option Word) :
    Prints (typedefLine kind.keyword (name.map Word.text)) (kind.aliasLine name) := by
  cases name with
  | none => exact .done
  | some name => exact Prints.text_of_eq (by simp [Aggregate.aliasLine, Word.chars])

theorem prints_aggregate {inner : Renderer} {kind : Aggregate} {name : Option Word}
    {members : List NodeId} {body : List Char}
    (h : Plain tree options id (kind.payload members) (name.map Word.text))
    (hbody : Prints (items options inner ";\n" members (d + 1) (l + 1)) body) :
    Prints (nodeWith tree options inner id d l)
      ((if d = 0 then kind.aliasLine name else []) ++ (kind.heading name ++
        (margin options.indent.toList l ++ '{' :: '\n' :: (body ++
          (margin options.indent.toList l ++
            '}' :: if d = 0 then [';', '\n', '\n'] else []))))) := by
  have htop (r : Rendering Unit) {chars : List Char} (hr : Prints r chars) :
      Prints (atTop d r) (if d = 0 then chars else []) := by
    unfold atTop
    split
    · exact hr
    · exact .done
  have hmargin := prints_margin options l
  have hclose := (Prints.text "\x7d").bind (htop _ (.text ";\n\n"))
  have hopen := (Prints.text "\x7b\n").bind (hbody.bind (hmargin.bind hclose))
  have hbraced := (htop _ (prints_alias kind name)).bind
    ((prints_heading kind name).bind (hmargin.bind hopen))
  obtain ⟨node, hnode, hpayload, htext, hplain⟩ := h
  rw [← htext] at hbraced
  cases kind with
  | struct | union =>
    simp only [nodeWith, hnode, orFault, done_bind, tagComment_of_plain hplain, hpayload,
      Aggregate.payload]
    exact hbraced

theorem prints_members {ids : List NodeId} {members : Members}
    (h : Members.Describes tree options ids members) (d l : Nat) :
    Prints (items options (unbounded tree options) ";\n" ids (d + 1) l)
      (members.chars options.indent.toList l) := by
  induction h generalizing d l with
  | nil => exact .done
  | @named id type ids usage name declarator rest hdeclares hinline _ ih =>
    have hbase : Prints (base (unbounded tree options) name.text (d + 1) l usage.inlineAggregate)
        name.chars := by
      rw [hinline]
      exact .text name.text
    have hline := (prints_margin options l).bind
      ((prints_declaration hdeclares hbase).bind (.text ";\n"))
    have h := hline.bind (ih d l)
    simpa [items, Members.chars] using h
  | @inline id type aggregate ids members usage text kind name body declarator rest hdeclares
      hinline haggregate _ _ ihbody ih =>
    have hbase : Prints (base (unbounded tree options) (text.getD "") (d + 1) l
        usage.inlineAggregate) (kind.heading name ++ (margin options.indent.toList l ++
          '{' :: '\n' :: (body.chars options.indent.toList (l + 1) ++
            (margin options.indent.toList l ++ ['}'])))) := by
      rw [hinline]
      apply prints_unbounded
      exact prints_aggregate haggregate (ihbody (d + 2) (l + 1))
    have hline := (prints_margin options l).bind
      ((prints_declaration hdeclares hbase).bind (.text ";\n"))
    have h := hline.bind (ih d l)
    simpa [items, Members.chars] using h

theorem emitText_of_describes {schema : Schema} (h : schema.Describes tree options id) :
    emitText tree options id false = .ok (String.ofList (schema.chars options.indent.toList)) := by
  obtain ⟨members, haggregate, hmembers⟩ := h
  have h := prints_unbounded (prints_aggregate haggregate (prints_members hmembers 0 1))
  rw [emitText_eq]
  simpa [Schema.chars, margin] using h.toText

end DeclTree.Header
