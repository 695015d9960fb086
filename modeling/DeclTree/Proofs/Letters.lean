namespace DeclTree.Letters

variable {c : Char}

theorem isUpper_iff : c.isUpper ↔ 65 ≤ c.toNat ∧ c.toNat ≤ 90 := by
  refine (decide_eq_true_iff : c.isUpper ↔ 'A'.val ≤ c.val ∧ c.val ≤ 'Z'.val).trans ?_
  simp [UInt32.le_iff_toNat_le, ← Char.toNat_val]

theorem isLower_iff : c.isLower ↔ 97 ≤ c.toNat ∧ c.toNat ≤ 122 := by
  refine (Bool.and_eq_true_iff : c.isLower ↔ _).trans ?_
  simp [UInt32.le_iff_toNat_le, ← Char.toNat_val]

theorem isDigit_iff : c.isDigit ↔ 48 ≤ c.toNat ∧ c.toNat ≤ 57 := by
  refine (Bool.and_eq_true_iff : c.isDigit ↔ _).trans ?_
  simp [UInt32.le_iff_toNat_le, ← Char.toNat_val]

theorem isAlphanum_iff : c.isAlphanum ↔ (c.isUpper ∨ c.isLower) ∨ c.isDigit :=
  Bool.or_eq_true_iff.trans (or_congr_left Bool.or_eq_true_iff)

theorem isUpper_eq_false_iff : c.isUpper = false ↔ c.toNat < 65 ∨ 90 < c.toNat := by
  rw [Bool.eq_false_iff, Ne, isUpper_iff]
  omega

theorem isLower_eq_false_iff : c.isLower = false ↔ c.toNat < 97 ∨ 122 < c.toNat := by
  rw [Bool.eq_false_iff, Ne, isLower_iff]
  omega

theorem eq_underscore_iff : c = '_' ↔ c.toNat = 95 := Char.toNat_inj.symm

theorem toNat_toLower (c : Char) :
    (65 ≤ c.toNat ∧ c.toNat ≤ 90) ∧ c.toLower.toNat = c.toNat + 32 ∨
      (c.toNat < 65 ∨ 90 < c.toNat) ∧ c.toLower.toNat = c.toNat := by
  rw [← isUpper_iff, ← isUpper_eq_false_iff]
  unfold Char.toLower
  split
  · next h =>
    have hc : c.isUpper := decide_eq_true h
    have hle := (isUpper_iff.mp hc).2
    refine .inl ⟨hc, ?_⟩
    change (c.val + 32).toNat = c.toNat + 32
    rw [UInt32.toNat_add, Char.toNat_val]
    exact Nat.mod_eq_of_lt (by simp; omega)
  · next h => exact .inr ⟨decide_eq_false h, rfl⟩

theorem toNat_toUpper (c : Char) :
    (97 ≤ c.toNat ∧ c.toNat ≤ 122) ∧ c.toUpper.toNat + 32 = c.toNat ∨
      (c.toNat < 97 ∨ 122 < c.toNat) ∧ c.toUpper.toNat = c.toNat := by
  rw [← isLower_iff, ← isLower_eq_false_iff]
  unfold Char.toUpper
  split
  · next h =>
    have hc : c.isLower := Bool.and_eq_true_iff.mpr (h.imp decide_eq_true decide_eq_true)
    have hle := isLower_iff.mp hc
    refine .inl ⟨hc, ?_⟩
    -- the difference of the two alphabets is negative and wraps
    change (c.val + 4294967264).toNat + 32 = c.toNat
    rw [UInt32.toNat_add, Char.toNat_val]
    simp
    omega
  · next h =>
    refine .inr ⟨Bool.eq_false_iff.mpr fun hc => h ?_, rfl⟩
    exact (Bool.and_eq_true_iff.mp hc).imp of_decide_eq_true of_decide_eq_true

theorem isUpper_toLower (c : Char) : c.toLower.isUpper = false := by
  have h := toNat_toLower c
  rw [isUpper_eq_false_iff]
  omega

theorem isLower_toUpper (c : Char) : c.toUpper.isLower = false := by
  have h := toNat_toUpper c
  rw [isLower_eq_false_iff]
  omega

theorem isLower_toLower (hc : c.isUpper) : c.toLower.isLower := by
  have h := toNat_toLower c
  rw [isUpper_iff] at hc
  rw [isLower_iff]
  omega

theorem isUpper_toUpper (hc : c.isLower) : c.toUpper.isUpper := by
  have h := toNat_toUpper c
  rw [isLower_iff] at hc
  rw [isUpper_iff]
  omega

theorem toLower_of_isUpper_eq_false (hc : c.isUpper = false) : c.toLower = c := by
  have h := toNat_toLower c
  rw [isUpper_eq_false_iff] at hc
  rw [← Char.toNat_inj]
  omega

theorem toUpper_of_isLower_eq_false (hc : c.isLower = false) : c.toUpper = c := by
  have h := toNat_toUpper c
  rw [isLower_eq_false_iff] at hc
  rw [← Char.toNat_inj]
  omega

theorem toUpper_of_isUpper (hc : c.isUpper) : c.toUpper = c := by
  rw [isUpper_iff] at hc
  apply toUpper_of_isLower_eq_false
  rw [isLower_eq_false_iff]
  omega

theorem toUpper_toLower (c : Char) : c.toLower.toUpper = c.toUpper := by
  have hlower := toNat_toLower c
  have hupper := toNat_toUpper c
  have h := toNat_toUpper c.toLower
  rw [← Char.toNat_inj]
  omega

theorem toLower_toUpper (c : Char) : c.toUpper.toLower = c.toLower := by
  have hlower := toNat_toLower c
  have hupper := toNat_toUpper c
  have h := toNat_toLower c.toUpper
  rw [← Char.toNat_inj]
  omega

theorem toLower_eq_underscore_iff : c.toLower = '_' ↔ c = '_' := by
  have h := toNat_toLower c
  rw [eq_underscore_iff, eq_underscore_iff]
  omega

theorem toUpper_eq_underscore_iff : c.toUpper = '_' ↔ c = '_' := by
  have h := toNat_toUpper c
  rw [eq_underscore_iff, eq_underscore_iff]
  omega

end DeclTree.Letters
