import Mathlib.Data.Int.Bitwise
import DeclTree.Proofs.ExactArithmetic

namespace DeclTree

def exactTruth (b : Bool) : Int := if b then 1 else 0

def UnaryOp.exact : UnaryOp → Int → Int
  | .invalid, _ => 0
  | .negate, x => -x
  | .not, x => exactTruth (x = 0)
  | .bitNot, x => Int.lnot x

def exactShift (operation : Int → Nat → Int) (x amount : Int) : Int :=
  if 0 ≤ amount ∧ amount < 64 then operation x amount.toNat else 0

/-- What an operator means for unbounded integers. Division truncates toward zero and a remainder
has the sign of the dividend; `Int.land` and `Int.lor` read their operands as infinite two's
complement. -/
def BinaryOp.exact : BinaryOp → Int → Int → Int
  | .invalid, _, _ => 0
  | .add, x, y => x + y
  | .sub, x, y => x - y
  | .mul, x, y => x * y
  | .div, x, y => if y = 0 then 0 else x.tdiv y
  | .mod, x, y => if y = 0 then 0 else x.tmod y
  | .shl, x, y => exactShift (fun x n => x * 2 ^ n) x y
  | .shr, x, y => exactShift (fun x n => x.fdiv (2 ^ n)) x y
  | .bitAnd, x, y => Int.land x y
  | .bitOr, x, y => Int.lor x y
  | .and, x, y => exactTruth (x ≠ 0 ∧ y ≠ 0)
  | .or, x, y => exactTruth (x ≠ 0 ∨ y ≠ 0)

section Bits

variable {w : Nat} {x y : BitVec w}

theorem toInt_of_msb_false (h : x.msb = false) : x.toInt = Int.ofNat x.toNat := by
  rw [BitVec.toInt_eq_msb_cond, h]
  rfl

theorem toInt_of_msb_true (h : x.msb = true) : x.toInt = Int.negSucc (~~~x).toNat := by
  have hlt := x.isLt
  have hpow : ((2 ^ w : Nat) : Int) = 2 ^ w := by norm_cast
  rw [BitVec.toInt_eq_msb_cond, if_pos h, BitVec.toNat_not, Int.negSucc_eq]
  omega

theorem ldiff_toNat_not (x y : BitVec w) : Nat.ldiff x.toNat (~~~y).toNat = (x &&& y).toNat := by
  apply Nat.eq_of_testBit_eq
  intro i
  simp only [Nat.testBit_ldiff, BitVec.testBit_toNat, BitVec.getLsbD_and, BitVec.getLsbD_not]
  by_cases hi : i < w
  · simp [hi]
  · simp [BitVec.getLsbD_of_ge x i (Nat.le_of_not_lt hi)]

theorem toInt_and_eq_land (x y : BitVec w) : (x &&& y).toInt = Int.land x.toInt y.toInt := by
  -- a negative number has the bits of the complement of a natural one
  cases hx : x.msb <;> cases hy : y.msb
  · rw [toInt_of_msb_false hx, toInt_of_msb_false hy, toInt_of_msb_false (by simp [hx])]
    rfl
  · rw [toInt_of_msb_false hx, toInt_of_msb_true hy, toInt_of_msb_false (by simp [hx])]
    exact congrArg Int.ofNat (ldiff_toNat_not x y).symm
  · rw [toInt_of_msb_true hx, toInt_of_msb_false hy, toInt_of_msb_false (by simp [hy]),
      BitVec.and_comm]
    exact congrArg Int.ofNat (ldiff_toNat_not y x).symm
  · rw [toInt_of_msb_true hx, toInt_of_msb_true hy, toInt_of_msb_true (by simp [hx, hy]),
      BitVec.not_and]
    rfl

theorem toInt_or_eq_lor (x y : BitVec w) : (x ||| y).toInt = Int.lor x.toInt y.toInt := by
  cases hx : x.msb <;> cases hy : y.msb
  · rw [toInt_of_msb_false hx, toInt_of_msb_false hy, toInt_of_msb_false (by simp [hx, hy])]
    rfl
  · rw [toInt_of_msb_false hx, toInt_of_msb_true hy, toInt_of_msb_true (by simp [hy]),
      BitVec.not_or, BitVec.and_comm, ← ldiff_toNat_not, BitVec.not_not]
    rfl
  · rw [toInt_of_msb_true hx, toInt_of_msb_false hy, toInt_of_msb_true (by simp [hx]),
      BitVec.not_or, ← ldiff_toNat_not, BitVec.not_not]
    rfl
  · rw [toInt_of_msb_true hx, toInt_of_msb_true hy, toInt_of_msb_true (by simp [hx]),
      BitVec.not_or]
    rfl

end Bits

variable {n : Nat}

theorem lnot_eq (x : Int) : Int.lnot x = -x - 1 := by
  cases x with
  | ofNat n => rw [Int.lnot, Int.negSucc_eq, Int.ofNat_eq_natCast]; omega
  | negSucc n => rw [Int.lnot, Int.negSucc_eq]; omega

theorem toInt_eq_zero_iff (x : Int64) : x.toInt = 0 ↔ x = 0 := by
  rw [← Int64.toInt_inj]
  rfl

theorem ofInt_exactTruth (b : Bool) : Int64.ofInt (exactTruth b) = truth b := by
  cases b <;> rfl

theorem UnaryOp.apply_eq_ofInt (op : UnaryOp) (x : Int64) :
    op.apply x = Int64.ofInt (op.exact x.toInt) := by
  cases op with
  | invalid => rfl
  | negate => rw [exact, Int64.ofInt_neg, Int64.ofInt_toInt, apply]
  | not =>
    rw [exact, ofInt_exactTruth, apply]
    simp only [toInt_eq_zero_iff]
  | bitNot =>
    rw [exact, lnot_eq, Int64.ofInt_sub, Int64.ofInt_neg, Int64.ofInt_toInt, apply,
      Int64.not_eq_neg_sub]
    rfl

theorem toInt_shiftRight_ofNat (x : Int64) (hn : n < 64) :
    (x >>> Int64.ofNat n).toInt = x.toInt.fdiv (2 ^ n) := by
  have hpow : ((2 ^ n : Nat) : Int) = 2 ^ n := by norm_cast
  rw [← Int64.toInt_toBitVec, Int64.toBitVec_shiftRight, BitVec.sshiftRight_eq',
    toNat_smod_ofNat hn, BitVec.toInt_sshiftRight, Int64.toInt_toBitVec, Int.shiftRight_eq_div_pow,
    hpow, Int.fdiv_eq_ediv_of_nonneg _ (by positivity)]

theorem exists_ofNat_of_amount {y : Int64} (h : 0 ≤ y ∧ y < 64) :
    ∃ n : Nat, n < 64 ∧ y = Int64.ofNat n := by
  have h0 : 0 ≤ y.toInt := Int64.le_iff_toInt_le.mp h.1
  have h64 : y.toInt < 64 := Int64.lt_iff_toInt_lt.mp h.2
  obtain ⟨n, hn⟩ := Int.eq_ofNat_of_zero_le h0
  refine ⟨n, by omega, ?_⟩
  rw [← Int64.ofInt_toInt y, hn, Int64.ofInt_eq_ofNat]

theorem shift_eq_ofInt {operation : Int64 → Int64 → Int64} {exact : Int → Nat → Int}
    (h : ∀ (x : Int64) (n : Nat), n < 64 →
      operation x (Int64.ofNat n) = Int64.ofInt (exact x.toInt n)) (x y : Int64) :
    shift operation x y = Int64.ofInt (exactShift exact x.toInt y.toInt) := by
  have hiff : 0 ≤ y.toInt ∧ y.toInt < 64 ↔ 0 ≤ y ∧ y < 64 := by
    rw [Int64.le_iff_toInt_le, Int64.lt_iff_toInt_lt]
    rfl
  unfold shift exactShift
  simp only [hiff]
  by_cases hrange : 0 ≤ y ∧ y < 64
  · rw [if_pos hrange, if_pos hrange]
    obtain ⟨n, hn, rfl⟩ := exists_ofNat_of_amount hrange
    rw [h x n hn, Int64.toInt_ofNat_of_lt (by omega), Int.toNat_natCast]
  · rw [if_neg hrange, if_neg hrange]
    rfl

theorem ofInt_tdiv_toInt (x y : Int64) : Int64.ofInt (x.toInt.tdiv y.toInt) = x / y := by
  rw [Int64.ofInt_tdiv x.minValue_le_toInt x.toInt_le y.minValue_le_toInt y.toInt_le,
    Int64.ofInt_toInt, Int64.ofInt_toInt]

theorem ofInt_tmod_toInt (x y : Int64) : Int64.ofInt (x.toInt.tmod y.toInt) = x % y := by
  rw [← Int64.toInt_mod, Int64.ofInt_toInt]

theorem BinaryOp.apply_eq_ofInt (op : BinaryOp) (x y : Int64) :
    op.apply x y = Int64.ofInt (op.exact x.toInt y.toInt) := by
  cases op with
  | invalid => rfl
  | add => rw [exact, Int64.ofInt_add, Int64.ofInt_toInt, Int64.ofInt_toInt, apply]
  | sub => rw [exact, Int64.ofInt_sub, Int64.ofInt_toInt, Int64.ofInt_toInt, apply]
  | mul => rw [exact, Int64.ofInt_mul, Int64.ofInt_toInt, Int64.ofInt_toInt, apply]
  | div =>
    simp only [exact, apply, toInt_eq_zero_iff, apply_ite Int64.ofInt, ofInt_tdiv_toInt]
    rfl
  | mod =>
    simp only [exact, apply, toInt_eq_zero_iff, apply_ite Int64.ofInt, ofInt_tmod_toInt]
    rfl
  | shl =>
    rw [apply, exact]
    apply shift_eq_ofInt
    intro x n hn
    rw [shiftLeft_ofNat x hn, Int64.ofInt_mul, Int64.ofInt_toInt, ← Int64.ofInt_eq_ofNat,
      Nat.cast_pow, Nat.cast_ofNat]
  | shr =>
    rw [apply, exact]
    apply shift_eq_ofInt
    intro x n hn
    rw [← toInt_shiftRight_ofNat x hn, Int64.ofInt_toInt]
  | bitAnd =>
    have hland : Int.land x.toInt y.toInt = (x &&& y).toInt := by
      rw [← Int64.toInt_toBitVec (x &&& y), Int64.toBitVec_and, toInt_and_eq_land,
        Int64.toInt_toBitVec, Int64.toInt_toBitVec]
    rw [exact, hland, Int64.ofInt_toInt, apply]
  | bitOr =>
    have hlor : Int.lor x.toInt y.toInt = (x ||| y).toInt := by
      rw [← Int64.toInt_toBitVec (x ||| y), Int64.toBitVec_or, toInt_or_eq_lor,
        Int64.toInt_toBitVec, Int64.toInt_toBitVec]
    rw [exact, hlor, Int64.ofInt_toInt, apply]
  | and | or =>
    rw [exact, ofInt_exactTruth, apply]
    simp only [ne_eq, toInt_eq_zero_iff]

end DeclTree
