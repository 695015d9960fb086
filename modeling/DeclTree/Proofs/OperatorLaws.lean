import DeclTree.Proofs.Evaluation
import DeclTree.Proofs.WordOperators

namespace DeclTree

section Words

variable {w n : Nat}

theorem and_add_or (x y : BitVec w) : (x &&& y) + (x ||| y) = x + y := by
  -- the bits of `x` are those that `y` lacks and those that `y` has
  have hsplit : (x &&& ~~~y) + (x &&& y) = x := by
    rw [BitVec.add_eq_or_of_and_eq_zero]
    · ext i hi
      simp only [BitVec.getElem_or, BitVec.getElem_and, BitVec.getElem_not]
      cases x[i] <;> cases y[i] <;> rfl
    · ext i hi
      simp
      grind
  have hor : x ||| y = (x &&& ~~~y) + y := by
    rw [BitVec.add_eq_or_of_and_eq_zero]
    · ext i hi
      simp only [BitVec.getElem_or, BitVec.getElem_and, BitVec.getElem_not]
      cases x[i] <;> cases y[i] <;> rfl
    · ext i hi
      simp
  rw [hor, ← BitVec.add_assoc, BitVec.add_comm (x &&& y), hsplit]

theorem toNat_mask (hn : n < w) : ((1#w <<< n) - 1#w).toNat = 2 ^ n - 1 := by
  have hone : (1#w).toNat = 1 := by
    rw [BitVec.toNat_ofNat]
    exact Nat.mod_eq_of_lt (Nat.one_lt_two_pow (by omega))
  have hpower : (1#w <<< n).toNat = 2 ^ n := BitVec.toNat_twoPow_of_lt hn
  rw [BitVec.toNat_sub_of_le, hpower, hone]
  rw [BitVec.le_def, hpower, hone]
  exact Nat.one_le_two_pow

theorem shift_or_mask (x : BitVec w) (hn : n < w) :
    x.sshiftRight n <<< n ||| (x &&& ((1#w <<< n) - 1#w)) = x := by
  apply BitVec.eq_of_getLsbD_eq
  intro i hi
  simp only [BitVec.getLsbD_or, BitVec.getLsbD_and, BitVec.getLsbD_shiftLeft,
    BitVec.getLsbD_sshiftRight]
  rw [← BitVec.testBit_toNat ((1#w <<< n) - 1#w), toNat_mask hn, Nat.testBit_two_pow_sub_one]
  by_cases h : i < n
  · simp [h, hi]
  · have hback : n + (i - n) = i := by omega
    simp [h, hi, hback]
    omega

theorem div_mul_add_mod (x y : Int64) : x / y * y + x % y = x := by
  rw [← ofInt_tdiv_toInt, ← ofInt_tmod_toInt]
  nth_rewrite 2 [← Int64.ofInt_toInt y]
  rw [← Int64.ofInt_mul, ← Int64.ofInt_add, Int.tdiv_mul_add_tmod, Int64.ofInt_toInt]

theorem sign_toInt_mod (x y : Int64) : x % y = 0 ∨ (x % y).toInt.sign = x.toInt.sign := by
  rw [← toInt_eq_zero_iff, Int64.toInt_mod, Int.sign_tmod]
  by_cases h : y.toInt ∣ x.toInt
  · exact .inl (Int.tmod_eq_zero_of_dvd h)
  · exact .inr (if_neg h)

theorem natAbs_toInt_mod_lt (x : Int64) {y : Int64} (hy : y ≠ 0) :
    (x % y).toInt.natAbs < y.toInt.natAbs := by
  rw [Int64.toInt_mod, Int.natAbs_tmod]
  apply Nat.mod_lt
  exact Int.natAbs_pos.mpr fun h => hy ((toInt_eq_zero_iff y).mp h)

theorem apply_shift_or_mask (x : Int64) {s : Int64} (hs : 0 ≤ s ∧ s < 64) :
    BinaryOp.shl.apply (BinaryOp.shr.apply x s) s ||| (x &&& (BinaryOp.shl.apply 1 s - 1)) = x := by
  simp only [BinaryOp.apply, shift, if_pos hs]
  obtain ⟨n, hn, rfl⟩ := exists_ofNat_of_amount hs
  apply Int64.toBitVec_inj.mp
  simp only [Int64.toBitVec_or, Int64.toBitVec_and, Int64.toBitVec_sub, Int64.toBitVec_shiftLeft,
    Int64.toBitVec_shiftRight, BitVec.shiftLeft_eq', BitVec.sshiftRight_eq', toNat_smod_ofNat hn]
  exact shift_or_mask x.toBitVec hn

end Words

namespace Expression

section Notation

variable {α : Type}

instance : Add (Expression α) := ⟨binary .add⟩
instance : Sub (Expression α) := ⟨binary .sub⟩
instance : Mul (Expression α) := ⟨binary .mul⟩
instance : Div (Expression α) := ⟨binary .div⟩
instance : Mod (Expression α) := ⟨binary .mod⟩
instance : AndOp (Expression α) := ⟨binary .bitAnd⟩
instance : OrOp (Expression α) := ⟨binary .bitOr⟩
instance : ShiftLeft (Expression α) := ⟨binary .shl⟩
instance : ShiftRight (Expression α) := ⟨binary .shr⟩
instance : Complement (Expression α) := ⟨unary .bitNot⟩

end Notation

/-- A node is an expression over subtrees. For a subtree may stand any other of the same value. -/
inductive Formed (tree : Tree) : Expression NodeId → NodeId → Prop
  | leaf {a id : NodeId} : tree.value id = tree.value a → Formed tree (.leaf a) id
  | unary {id operand : NodeId} {node : Node} {op : UnaryOp} {e : Expression NodeId} :
    tree.node id = .ok node → node.payload = .unary op operand → Formed tree e operand →
    Formed tree (.unary op e) id
  | binary {id left right : NodeId} {node : Node} {op : BinaryOp} {e e' : Expression NodeId} :
    tree.node id = .ok node → node.payload = .binary op left right → Formed tree e left →
    Formed tree e' right → Formed tree (.binary op e e') id

def valueOver (tree : Tree) : Expression NodeId → Except Fault Int64
  | leaf a => tree.value a
  | unary op e => do return op.apply (← e.valueOver tree)
  | binary op e e' => do return op.apply (← e.valueOver tree) (← e'.valueOver tree)

variable {tree : Tree} {e e' : Expression NodeId} {a b s one id id' : NodeId} {x y : Int64}
  {f : Fault}

theorem Formed.value_eq (h : Formed tree e id) : tree.value id = e.valueOver tree := by
  induction h with
  | leaf h => exact h
  | unary hnode hp _ ih => rw [Tree.value_of_unary hnode hp, ih, valueOver]
  | binary hnode hp _ _ ihl ihr => rw [Tree.value_of_binary hnode hp, ihl, ihr, valueOver]

theorem valueOver_unary {op : UnaryOp} (h : e.valueOver tree = .ok x) :
    (unary op e).valueOver tree = .ok (op.apply x) := by
  rw [valueOver, h]
  rfl

theorem valueOver_binary {op : BinaryOp} (h : e.valueOver tree = .ok x)
    (h' : e'.valueOver tree = .ok y) : (binary op e e').valueOver tree = .ok (op.apply x y) := by
  rw [valueOver, h, h']
  rfl

theorem valueOver_unary_error {op : UnaryOp} (h : e.valueOver tree = .error f) :
    (unary op e).valueOver tree = .error f := by
  rw [valueOver, h]
  rfl

theorem valueOver_left_error {op : BinaryOp} (h : e.valueOver tree = .error f) :
    (binary op e e').valueOver tree = .error f := by
  rw [valueOver, h]
  rfl

theorem valueOver_right_error {op : BinaryOp} (h : e.valueOver tree = .ok x)
    (h' : e'.valueOver tree = .error f) : (binary op e e').valueOver tree = .error f := by
  rw [valueOver, h, h']
  rfl

theorem valueOver_div (ha : tree.value a = .ok x) (hb : tree.value b = .ok y) (hy : y ≠ 0) :
    (leaf a / leaf b).valueOver tree = .ok (x / y) := by
  have h : (leaf a / leaf b).valueOver tree = .ok (BinaryOp.div.apply x y) := valueOver_binary ha hb
  rwa [BinaryOp.apply, if_neg hy] at h

theorem valueOver_mod (ha : tree.value a = .ok x) (hb : tree.value b = .ok y) (hy : y ≠ 0) :
    (leaf a % leaf b).valueOver tree = .ok (x % y) := by
  have h : (leaf a % leaf b).valueOver tree = .ok (BinaryOp.mod.apply x y) := valueOver_binary ha hb
  rwa [BinaryOp.apply, if_neg hy] at h

theorem value_quotient_remainder (hb : tree.value b = .ok y) (hy : y ≠ 0)
    (h : Formed tree (leaf a / leaf b * leaf b + leaf a % leaf b) id) :
    tree.value id = tree.value a := by
  rw [h.value_eq]
  cases ha : tree.value a with
  | error f => exact valueOver_left_error (valueOver_left_error (valueOver_left_error ha))
  | ok x =>
    have hsum : (leaf a / leaf b * leaf b + leaf a % leaf b).valueOver tree =
        .ok (x / y * y + x % y) :=
      valueOver_binary (valueOver_binary (valueOver_div ha hb hy) hb) (valueOver_mod ha hb hy)
    rw [hsum, div_mul_add_mod]

theorem value_sum (h : Formed tree ((leaf a &&& leaf b) + (leaf a ||| leaf b)) id)
    (h' : Formed tree (leaf a + leaf b) id') : tree.value id = tree.value id' := by
  rw [h.value_eq, h'.value_eq]
  cases ha : (leaf a).valueOver tree with
  | error f =>
    have hsum : (leaf a + leaf b).valueOver tree = .error f := valueOver_left_error ha
    rw [hsum]
    exact valueOver_left_error (valueOver_left_error ha)
  | ok x =>
    cases hb : (leaf b).valueOver tree with
    | error f =>
      have hsum : (leaf a + leaf b).valueOver tree = .error f := valueOver_right_error ha hb
      rw [hsum]
      exact valueOver_left_error (valueOver_right_error ha hb)
    | ok y =>
      have hbits : ((leaf a &&& leaf b) + (leaf a ||| leaf b)).valueOver tree =
          .ok ((x &&& y) + (x ||| y)) :=
        valueOver_binary (valueOver_binary ha hb) (valueOver_binary ha hb)
      have hsum : (leaf a + leaf b).valueOver tree = .ok (x + y) := valueOver_binary ha hb
      rw [hbits, hsum]
      exact congrArg Except.ok (Int64.toBitVec_inj.mp (and_add_or x.toBitVec y.toBitVec))

theorem value_complement (h : Formed tree (~~~(leaf a &&& leaf b)) id)
    (h' : Formed tree (~~~leaf a ||| ~~~leaf b) id') : tree.value id = tree.value id' := by
  rw [h.value_eq, h'.value_eq]
  cases ha : (leaf a).valueOver tree with
  | error f =>
    have hor : (~~~leaf a ||| ~~~leaf b).valueOver tree = .error f :=
      valueOver_left_error (valueOver_unary_error ha)
    rw [hor]
    exact valueOver_unary_error (valueOver_left_error ha)
  | ok x =>
    have hx : (~~~leaf a).valueOver tree = .ok (~~~x) := valueOver_unary ha
    cases hb : (leaf b).valueOver tree with
    | error f =>
      have hor : (~~~leaf a ||| ~~~leaf b).valueOver tree = .error f :=
        valueOver_right_error hx (valueOver_unary_error hb)
      rw [hor]
      exact valueOver_unary_error (valueOver_right_error ha hb)
    | ok y =>
      have hand : (~~~(leaf a &&& leaf b)).valueOver tree = .ok (~~~(x &&& y)) :=
        valueOver_unary (valueOver_binary ha hb)
      have hor : (~~~leaf a ||| ~~~leaf b).valueOver tree = .ok (~~~x ||| ~~~y) :=
        valueOver_binary hx (valueOver_unary hb)
      rw [hand, hor]
      exact congrArg Except.ok (Int64.toBitVec_inj.mp BitVec.not_and)

theorem value_shifts {n : Int64} (hs : tree.value s = .ok n) (hn : 0 ≤ n ∧ n < 64)
    (hone : tree.value one = .ok 1)
    (h : Formed tree (((leaf a >>> leaf s) <<< leaf s) |||
      (leaf a &&& ((leaf one <<< leaf s) - leaf one))) id) :
    tree.value id = tree.value a := by
  rw [h.value_eq]
  cases ha : tree.value a with
  | error f => exact valueOver_left_error (valueOver_left_error (valueOver_left_error ha))
  | ok x =>
    have hhigh : ((leaf a >>> leaf s) <<< leaf s).valueOver tree =
        .ok (BinaryOp.shl.apply (BinaryOp.shr.apply x n) n) :=
      valueOver_binary (valueOver_binary ha hs) hs
    have hlow : (leaf a &&& ((leaf one <<< leaf s) - leaf one)).valueOver tree =
        .ok (x &&& (BinaryOp.shl.apply 1 n - 1)) :=
      valueOver_binary ha (valueOver_binary (valueOver_binary hone hs) hone)
    rw [← apply_shift_or_mask x hn]
    exact valueOver_binary hhigh hlow

/-- The laws that tie the operators together for the subtrees `a`, `b` and `s`, where `one` stands
for the number one. They hold of all words, also where a result wraps around. -/
structure Lawful (tree : Tree) (a b s one : NodeId) : Prop where
  quotient_remainder : ∀ y, tree.value b = .ok y → y ≠ 0 →
    ∀ id, Formed tree (leaf a / leaf b * leaf b + leaf a % leaf b) id → tree.value id = tree.value a
  remainder : ∀ x y, tree.value a = .ok x → tree.value b = .ok y → y ≠ 0 →
    ∀ id, Formed tree (leaf a % leaf b) id →
      ∃ r, tree.value id = .ok r ∧ (r = 0 ∨ r.toInt.sign = x.toInt.sign) ∧
        r.toInt.natAbs < y.toInt.natAbs
  zero_divisor : ∀ x, tree.value a = .ok x → tree.value b = .ok 0 →
    ∀ id, Formed tree (leaf a / leaf b) id ∨ Formed tree (leaf a % leaf b) id → tree.value id = .ok 0
  sum : ∀ id id', Formed tree ((leaf a &&& leaf b) + (leaf a ||| leaf b)) id →
    Formed tree (leaf a + leaf b) id' → tree.value id = tree.value id'
  complement : ∀ id id', Formed tree (~~~(leaf a &&& leaf b)) id →
    Formed tree (~~~leaf a ||| ~~~leaf b) id' → tree.value id = tree.value id'
  shifts : ∀ n, tree.value s = .ok n → 0 ≤ n ∧ n < 64 → tree.value one = .ok 1 →
    ∀ id, Formed tree (((leaf a >>> leaf s) <<< leaf s) |||
      (leaf a &&& ((leaf one <<< leaf s) - leaf one))) id → tree.value id = tree.value a

theorem lawful (tree : Tree) (a b s one : NodeId) : Lawful tree a b s one where
  quotient_remainder _ hb hy _ h := value_quotient_remainder hb hy h
  remainder x y ha hb hy id h := by
    refine ⟨x % y, ?_, sign_toInt_mod x y, natAbs_toInt_mod_lt x hy⟩
    rw [h.value_eq, valueOver_mod ha hb hy]
  zero_divisor x ha hb id h := by
    have hdiv : (leaf a / leaf b).valueOver tree = .ok (BinaryOp.div.apply x 0) :=
      valueOver_binary ha hb
    have hmod : (leaf a % leaf b).valueOver tree = .ok (BinaryOp.mod.apply x 0) :=
      valueOver_binary ha hb
    rcases h with h | h
    · exact h.value_eq.trans hdiv
    · exact h.value_eq.trans hmod
  sum _ _ h h' := value_sum h h'
  complement _ _ h h' := value_complement h h'
  shifts _ hs hn hone _ h := value_shifts hs hn hone h

def leastTree : Tree where
  nodes := #[⟨.numericConstant, some "9223372036854775808", none, []⟩,
    ⟨.numericConstant, some "1", none, []⟩, ⟨.unary .negate 1, some "-", none, []⟩,
    ⟨.numericConstant, some "63", none, []⟩, ⟨.binary .div 0 2, some "/", none, []⟩,
    ⟨.binary .mul 4 2, some "*", none, []⟩, ⟨.binary .mod 0 2, some "%", none, []⟩,
    ⟨.binary .add 5 6, some "+", none, []⟩, ⟨.binary .shr 0 3, some ">>", none, []⟩,
    ⟨.binary .shl 8 3, some "<<", none, []⟩, ⟨.binary .shl 1 3, some "<<", none, []⟩,
    ⟨.binary .sub 10 1, some "-", none, []⟩, ⟨.binary .bitAnd 0 11, some "&", none, []⟩,
    ⟨.binary .bitOr 9 12, some "|", none, []⟩]

theorem lawful_least :
    leastTree.value 2 = .ok (-1) ∧ leastTree.value 3 = .ok 63 ∧ leastTree.value 1 = .ok 1 ∧
      leastTree.value 0 = .ok Int64.minValue ∧ leastTree.value 7 = .ok Int64.minValue ∧
      leastTree.value 13 = .ok Int64.minValue := by
  have hleast : leastTree.value 0 = .ok Int64.minValue := rfl
  have hdivisor : leastTree.value 2 = .ok (-1) := rfl
  have hamount : leastTree.value 3 = .ok 63 := rfl
  have hone : leastTree.value 1 = .ok 1 := rfl
  have hdiv : Formed leastTree (leaf 0 / leaf 2 * leaf 2 + leaf 0 % leaf 2) 7 :=
    .binary rfl rfl (.binary rfl rfl (.binary rfl rfl (.leaf rfl) (.leaf rfl)) (.leaf rfl))
      (.binary rfl rfl (.leaf rfl) (.leaf rfl))
  have hshift : Formed leastTree (((leaf 0 >>> leaf 3) <<< leaf 3) |||
      (leaf 0 &&& ((leaf 1 <<< leaf 3) - leaf 1))) 13 :=
    .binary rfl rfl (.binary rfl rfl (.binary rfl rfl (.leaf rfl) (.leaf rfl)) (.leaf rfl))
      (.binary rfl rfl (.leaf rfl) (.binary rfl rfl (.binary rfl rfl (.leaf rfl) (.leaf rfl))
        (.leaf rfl)))
  have h := lawful leastTree 0 2 3 1
  have hquotient := h.quotient_remainder (-1) hdivisor (by decide) 7 hdiv
  have hcut := h.shifts 63 hamount (by decide) hone 13 hshift
  exact ⟨hdivisor, hamount, hone, hleast, hquotient.trans hleast, hcut.trans hleast⟩

end Expression

end DeclTree
