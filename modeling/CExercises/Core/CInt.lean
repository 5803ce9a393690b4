import CExercises.Core.Memory

/-!
# The ranges of the integer types

`int` has 32 bits and `long` has 64.  An `int` that leaves its range by arithmetic is undefined
behaviour; a value that is *converted* to `int` keeps its low 32 bits.
-/

namespace CExercises

def INT_MIN : ℤ := -2147483648

def INT_MAX : ℤ := 2147483647

def LONG_MIN : ℤ := -9223372036854775808

def LONG_MAX : ℤ := 9223372036854775807

/-- The number of values of `size_t`. -/
def sizeMod : ℕ := 18446744073709551616

/-- The value is an `int`. -/
def FitsInt (v : ℤ) : Prop := INT_MIN ≤ v ∧ v ≤ INT_MAX

/-- The value is a `long`. -/
def FitsLong (v : ℤ) : Prop := LONG_MIN ≤ v ∧ v ≤ LONG_MAX

instance (v : ℤ) : Decidable (FitsInt v) := inferInstanceAs (Decidable (_ ∧ _))

instance (v : ℤ) : Decidable (FitsLong v) := inferInstanceAs (Decidable (_ ∧ _))

lemma FitsInt.fitsLong {v : ℤ} (h : FitsInt v) : FitsLong v := by
  unfold FitsInt INT_MIN INT_MAX at h
  unfold FitsLong LONG_MIN LONG_MAX
  omega

/-- `i++` and `i + 1` on an `int`. -/
def intSucc (i : ℤ) : Except Stop ℤ := if i < INT_MAX then .ok (i + 1) else .error .overflow

lemma intSucc_eq {i : ℤ} (h : i < INT_MAX) : intSucc i = .ok (i + 1) := if_pos h

lemma intSucc_overflow {i : ℤ} (h : INT_MAX ≤ i) : intSucc i = .error .overflow :=
  if_neg (Int.not_lt.mpr h)

/-- A sum that is computed is the sum. -/
lemma intSucc_inv {n c : ℤ} (h : intSucc n = .ok c) : c = n + 1 := by
  simp only [intSucc] at h
  split at h
  · cases h
    rfl
  · cases h

lemma intSucc_le_max {i k : ℤ} (h : intSucc i = .ok k) : k ≤ INT_MAX := by
  unfold intSucc at h
  split_ifs at h with hlt
  cases h
  omega

/-- `i--` on an `int`. -/
def intPred (i : ℤ) : Except Stop ℤ := if INT_MIN < i then .ok (i - 1) else .error .overflow

lemma intPred_eq {i : ℤ} (h : INT_MIN < i) : intPred i = .ok (i - 1) := if_pos h

lemma intPred_inv {n c : ℤ} (h : intPred n = .ok c) : c = n - 1 := by
  simp only [intPred] at h
  split at h
  · cases h
    rfl
  · cases h

/-- `a + b` on `int`s. -/
def intAdd (a b : ℤ) : Except Stop ℤ :=
  if FitsInt (a + b) then .ok (a + b) else .error .overflow

/-- `a * b` on `int`s. -/
def intMul (a b : ℤ) : Except Stop ℤ :=
  if FitsInt (a * b) then .ok (a * b) else .error .overflow

/-- `a / b` on `int`s, which drops the fraction. -/
def intDiv (a b : ℤ) : Except Stop ℤ :=
  if b = 0 then .error .divByZero
  else if FitsInt (a.tdiv b) then .ok (a.tdiv b)
  else .error .overflow

lemma fitsInt_natCast {a : ℕ} (h : (a : ℤ) ≤ INT_MAX) : FitsInt a :=
  ⟨by unfold INT_MIN; omega, h⟩

lemma intAdd_natCast {a b : ℕ} (h : ((a + b : ℕ) : ℤ) ≤ INT_MAX) :
    intAdd a b = .ok (a + b : ℕ) := by
  have hfits : FitsInt ((a : ℤ) + b) := by
    rw [← Int.natCast_add]
    exact fitsInt_natCast h
  rw [intAdd, if_pos hfits, Int.natCast_add]

/-- The `int` with the value `n`.  A computation that only counts upwards, to an `n` beyond the
range, overflows on the way. -/
def intOfNat (n : ℕ) : Except Stop ℤ := if (n : ℤ) ≤ INT_MAX then .ok n else .error .overflow

lemma intOfNat_of_le {n : ℕ} (h : (n : ℤ) ≤ INT_MAX) : intOfNat n = .ok n := if_pos h

lemma intOfNat_of_lt {n : ℕ} (h : INT_MAX < n) : intOfNat n = .error .overflow :=
  if_neg (Int.not_le.mpr h)

lemma intOfNat_eq_ok {n : ℕ} {v : ℤ} : intOfNat n = .ok v ↔ (n : ℤ) ≤ INT_MAX ∧ v = n := by
  unfold intOfNat
  split_ifs with h
  · simp [h, eq_comm]
  · simp [h]

/-- The sum of two numbers that are not negative overflows at the upper end only. -/
lemma intAdd_eq_intOfNat (a b : ℕ) : intAdd a b = intOfNat (a + b) := by
  unfold intAdd intOfNat FitsInt INT_MIN
  rw [Int.natCast_add]
  exact if_congr (and_iff_right (by omega)) rfl rfl

/-- A part that overflows makes the whole overflow. -/
lemma intOfNat_bind {a b : ℕ} {f : ℤ → Except Stop ℤ} (hab : a ≤ b) (hf : f a = intOfNat b) :
    (intOfNat a >>= f) = intOfNat b := by
  by_cases ha : (a : ℤ) ≤ INT_MAX
  · rw [intOfNat_of_le ha, ok_bind, hf]
  · rw [intOfNat_of_lt (by omega), intOfNat_of_lt (by omega), error_bind]

lemma intDiv_natCast {a b : ℕ} (h : (a : ℤ) ≤ INT_MAX) (hb : 0 < b) :
    intDiv a b = .ok (a / b : ℕ) := by
  have hle := Nat.div_le_self a b
  have hfits : FitsInt ((a : ℤ).tdiv b) := by
    rw [← Int.ofNat_tdiv]
    exact fitsInt_natCast (by omega)
  rw [intDiv, if_neg (by omega), if_pos hfits, Int.ofNat_tdiv]

/-- `(int)v`. -/
def toInt (v : ℤ) : ℤ := v.bmod 4294967296

lemma fitsInt_toInt (v : ℤ) : FitsInt (toInt v) := by
  unfold FitsInt toInt INT_MIN INT_MAX
  have hlo := @Int.le_bmod v 4294967296 (by omega)
  have hhi := @Int.bmod_lt v 4294967296 (by omega)
  omega

/-- The conversion keeps the value exactly when the value is an `int`. -/
lemma toInt_eq_self_iff {v : ℤ} : toInt v = v ↔ FitsInt v := by
  constructor
  · intro h
    rw [← h]
    exact fitsInt_toInt v
  · rintro ⟨hlo, hhi⟩
    unfold INT_MIN at hlo
    unfold INT_MAX at hhi
    exact Int.bmod_eq_of_le (by omega) (by omega)

/-- Of a value below `2 ^ 32` in size the conversion keeps the sign exactly when it keeps the
value. -/
lemma sign_toInt_iff {v : ℤ} (hlo : -4294967296 < v) (hhi : v < 4294967296) :
    (toInt v).sign = v.sign ↔ FitsInt v := by
  constructor
  · intro h
    by_contra hfits
    have hv : v < -2147483648 ∨ 2147483647 < v := by
      unfold FitsInt INT_MIN INT_MAX at hfits
      omega
    rcases hv with hv | hv
    · -- `2 ^ 32` is added, and the result is positive
      have hneg : v.sign = -1 := Int.sign_eq_neg_one_of_neg (by omega)
      rw [hneg, Int.sign_eq_neg_one_iff_neg, toInt, Int.bmod_def] at h
      split_ifs at h <;> omega
    · have hpos : v.sign = 1 := Int.sign_eq_one_of_pos (by omega)
      rw [hpos, Int.sign_eq_one_iff_pos, toInt, Int.bmod_def] at h
      split_ifs at h <;> omega
  · intro h
    rw [toInt_eq_self_iff.mpr h]

end CExercises
