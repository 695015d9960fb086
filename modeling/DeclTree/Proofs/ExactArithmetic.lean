import Mathlib.Data.Int.ModEq
import Mathlib.Data.Nat.Digits.Defs
import DeclTree.Proofs.Expression

namespace DeclTree

def digitValue (c : Char) : Nat := c.toNat - '0'.toNat

def firstDigits (text : String) : List Char :=
  (text.toList.dropWhile fun c => !c.isDigit).takeWhile Char.isDigit

def decimal (text : String) : Nat := Nat.ofDigits 10 ((firstDigits text).reverse.map digitValue)

theorem foldl_digits (digits : List Char) :
    digits.foldl (fun value c => value * 10 + Int64.ofNat (c.toNat - '0'.toNat)) 0 =
      Int64.ofNat (Nat.ofDigits 10 (digits.reverse.map digitValue)) := by
  induction digits using List.reverseRecOn with
  | nil => rfl
  | append_singleton digits c ih =>
    rw [List.foldl_append, ih, List.reverse_append, List.reverse_singleton, List.singleton_append,
      List.map_cons, Nat.ofDigits_cons, Int64.ofNat_add, Int64.ofNat_mul, Int64.add_comm,
      Int64.mul_comm]
    rfl

theorem leadingInteger_eq (text : String) : leadingInteger text = Int64.ofNat (decimal text) :=
  foldl_digits (firstDigits text)

theorem toNat_smod_ofNat {n : Nat} (hn : n < 64) :
    ((Int64.ofNat n).toBitVec.smod 64).toNat = n := by
  have hall : ∀ n < 64, ((Int64.ofNat n).toBitVec.smod 64).toNat = n := by decide
  exact hall n hn

theorem shiftLeft_ofNat (x : Int64) {n : Nat} (hn : n < 64) :
    x <<< Int64.ofNat n = x * Int64.ofNat (2 ^ n) := by
  have hpower : BitVec.twoPow 64 n = (Int64.ofNat (2 ^ n)).toBitVec := by
    apply BitVec.eq_of_toNat_eq
    rw [BitVec.toNat_twoPow, Int64.toBitVec_ofNat', BitVec.toNat_ofNat]
  apply Int64.toBitVec_inj.mp
  rw [Int64.toBitVec_shiftLeft, BitVec.shiftLeft_eq', toNat_smod_ofNat hn,
    BitVec.shiftLeft_eq_mul_twoPow, hpower, Int64.toBitVec_mul]

theorem ofNat_two_pow {n : Nat} (hn : 64 ≤ n) : Int64.ofNat (2 ^ n) = 0 := by
  obtain ⟨k, rfl⟩ := Nat.exists_eq_add_of_le hn
  have hfull : Int64.ofNat (2 ^ 64) = 0 := by decide
  rw [Nat.pow_add, Int64.ofNat_mul, hfull, Int64.zero_mul]

theorem shift_ofNat (x : Int64) {n : Nat} (hn : n < 2 ^ 63) :
    shift (· <<< ·) x (Int64.ofNat n) = x * Int64.ofNat (2 ^ n) := by
  have hamount : (Int64.ofNat n).toInt = n := Int64.toInt_ofNat_of_lt hn
  by_cases hshort : n < 64
  · have hrange : 0 ≤ Int64.ofNat n ∧ Int64.ofNat n < 64 := by
      rw [Int64.le_iff_toInt_le, Int64.lt_iff_toInt_lt, hamount]
      exact ⟨Int.natCast_nonneg n, Int.ofNat_lt.mpr hshort⟩
    rw [shift, if_pos hrange, shiftLeft_ofNat x hshort]
  · -- the power of two is a multiple of the modulus
    have hrange : ¬ (0 ≤ Int64.ofNat n ∧ Int64.ofNat n < 64) := by
      rw [Int64.lt_iff_toInt_lt, hamount]
      rintro ⟨_, hlt⟩
      exact hshort (Int.ofNat_lt.mp hlt)
    rw [shift, if_neg hrange, ofNat_two_pow (Nat.le_of_not_lt hshort), Int64.mul_zero]

namespace Expression

inductive Exact : Expression Atom → Int → Prop
  | numeric (text : String) : Exact (.leaf (.numeric text)) (decimal text)
  | negate {e : Expression Atom} {x : Int} : Exact e x → Exact (.unary .negate e) (-x)
  | bitNot {e : Expression Atom} {x : Int} : Exact e x → Exact (.unary .bitNot e) (-x - 1)
  | add {e e' : Expression Atom} {x y : Int} :
    Exact e x → Exact e' y → Exact (.binary .add e e') (x + y)
  | sub {e e' : Expression Atom} {x y : Int} :
    Exact e x → Exact e' y → Exact (.binary .sub e e') (x - y)
  | mul {e e' : Expression Atom} {x y : Int} :
    Exact e x → Exact e' y → Exact (.binary .mul e e') (x * y)
  | shl {e : Expression Atom} {x : Int} {text : String} :
    Exact e x → decimal text < 2 ^ 63 →
    Exact (.binary .shl e (.leaf (.numeric text))) (x * 2 ^ decimal text)

variable {e : Expression Atom} {x : Int}

theorem Exact.value_eq (h : e.Exact x) : e.value = Int64.ofInt x := by
  induction h with
  | numeric text => exact (leadingInteger_eq text).trans Int64.ofInt_eq_ofNat.symm
  | negate _ ih => rw [value, ih, UnaryOp.apply, Int64.ofInt_neg]
  | bitNot _ ih =>
    rw [value, ih, UnaryOp.apply, Int64.not_eq_neg_sub, Int64.ofInt_sub, Int64.ofInt_neg]
    rfl
  | add _ _ ih ih' => rw [value, ih, ih', BinaryOp.apply, Int64.ofInt_add]
  | sub _ _ ih ih' => rw [value, ih, ih', BinaryOp.apply, Int64.ofInt_sub]
  | mul _ _ ih ih' => rw [value, ih, ih', BinaryOp.apply, Int64.ofInt_mul]
  | @shl e x text _ htext ih =>
    have hamount : value (.leaf (.numeric text)) = Int64.ofNat (decimal text) :=
      leadingInteger_eq text
    have hpower : Int64.ofInt (2 ^ decimal text) = Int64.ofNat (2 ^ decimal text) := by
      rw [← Int64.ofInt_eq_ofNat, Nat.cast_pow, Nat.cast_ofNat]
    rw [value, ih, hamount, BinaryOp.apply, shift_ofNat _ htext, Int64.ofInt_mul, hpower]

end Expression

theorem eq_toInt_ofInt_iff {x y : Int} :
    y = (Int64.ofInt x).toInt ↔ -2 ^ 63 ≤ y ∧ y < 2 ^ 63 ∧ y ≡ x [ZMOD 2 ^ 64] := by
  rw [Int64.toInt_ofInt, eq_comm, Int.bmod_eq_iff (by decide), Int.modEq_comm, Int.modEq_iff_dvd]
  rfl

theorem Expression.value_wraps_exact {tree : Tree} {id : NodeId} {e : Expression Atom} {x : Int}
    (h : e.Describes tree id) (hx : e.Exact x) :
    ∃ v, tree.value id = .ok v ∧
      ∀ y : Int, y = v.toInt ↔ -2 ^ 63 ≤ y ∧ y < 2 ^ 63 ∧ y ≡ x [ZMOD 2 ^ 64] := by
  refine ⟨e.value, h.value_eq, fun y => ?_⟩
  rw [hx.value_eq]
  exact eq_toInt_ofInt_iff

def overflowing : Expression Atom :=
  .binary .shl (.unary .bitNot (.binary .mul (.unary .negate (.leaf (.numeric
    "u18446744073709551617l"))) (.leaf (.numeric "3")))) (.leaf (.numeric "62"))

def overflowingTree : Tree where
  nodes := #[⟨.numericConstant, some "u18446744073709551617l", none, []⟩,
    ⟨.unary .negate 0, some "-", none, []⟩, ⟨.numericConstant, some "3", none, []⟩,
    ⟨.binary .mul 1 2, some "*", none, []⟩, ⟨.unary .bitNot 3, some "~", none, []⟩,
    ⟨.numericConstant, some "62", none, []⟩, ⟨.binary .shl 4 5, some "<<", none, []⟩]

theorem Expression.value_wraps_exact_overflowing :
    overflowing.Describes overflowingTree 6 ∧ overflowing.Exact (3 * 2 ^ 126 + 2 ^ 63) ∧
      ∃ v, overflowingTree.value 6 = .ok v ∧ v.toInt = -2 ^ 63 := by
  have h : overflowing.Describes overflowingTree 6 :=
    .binary rfl rfl (.unary rfl rfl (.binary rfl rfl (.unary rfl rfl (.leaf rfl rfl))
      (.leaf rfl rfl))) (.leaf rfl rfl)
  have hx : overflowing.Exact (3 * 2 ^ 126 + 2 ^ 63) := by
    have hlarge : decimal "u18446744073709551617l" = 18446744073709551617 := by decide
    have hx : overflowing.Exact _ := .shl (.bitNot (.mul (.negate (.numeric _)) (.numeric _)))
      (by decide)
    rw [hlarge] at hx
    exact hx
  obtain ⟨v, hv, hunique⟩ := value_wraps_exact h hx
  exact ⟨h, hx, v, hv, ((hunique (-2 ^ 63)).mpr ⟨by decide, by decide, by decide⟩).symm⟩

end DeclTree
