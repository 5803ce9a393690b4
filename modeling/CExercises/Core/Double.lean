import Mathlib.Data.Int.Log
import Mathlib.Data.Rat.Floor
import Mathlib.Algebra.Order.Field.Rat
import Mathlib.Tactic.Linarith
import Mathlib.Tactic.Positivity
import Mathlib.Tactic.Ring

/-!
# Rounding to `double`

A C `double` operation computes the exact result and rounds it to 53 significant bits, to nearest
with ties to even.  `roundDouble` is that rounding on the rationals, in the normal range (the
quotients of `int`s it is used on are nowhere near the subnormal numbers or infinity).

The one fact the programs need is `roundDouble_dyadic`: a fraction whose denominator is a power of
two and whose numerator has at most 53 bits is representable, so rounding leaves it alone.
-/

namespace CExercises

/-- The nearest integer, ties to even. -/
def roundEven (x : ℚ) : ℤ :=
  if x - ⌊x⌋ < 1 / 2 then ⌊x⌋
  else if 1 / 2 < x - ⌊x⌋ then ⌊x⌋ + 1
  else if ⌊x⌋ % 2 = 0 then ⌊x⌋ else ⌊x⌋ + 1

/-- The unit in the last place of a `double` of the magnitude of `x`. -/
def ulp (x : ℚ) : ℚ := 2 ^ (Int.log 2 |x| - 52)

/-- The `double` nearest to `x`. -/
def roundDouble (x : ℚ) : ℚ := roundEven (x / ulp x) * ulp x

lemma roundEven_intCast (n : ℤ) : roundEven n = n := by
  simp [roundEven]

/-- A multiple of its own unit in the last place is representable. -/
lemma roundDouble_of_multiple {x : ℚ} {n : ℤ} (h : x = n * ulp x) : roundDouble x = x := by
  have hu : ulp x ≠ 0 := (zpow_pos (by norm_num) _).ne'
  have hdiv : x / ulp x = n := by
    rw [div_eq_iff hu]
    exact h
  rw [roundDouble, hdiv, roundEven_intCast, ← h]

/-- **Dyadic fractions with a 53-bit numerator are exact.** -/
theorem roundDouble_dyadic (m k : ℕ) (hm : m < 2 ^ 53) :
    roundDouble ((m : ℚ) / 2 ^ k) = (m : ℚ) / 2 ^ k := by
  rcases Nat.eq_zero_or_pos m with rfl | hpos
  · exact roundDouble_of_multiple (n := 0) (by simp)
  · set x : ℚ := (m : ℚ) / 2 ^ k with hx
    have hmpos : (0 : ℚ) < m := by exact_mod_cast hpos
    have hxpos : 0 < x := by positivity
    have hlog : Int.log 2 |x| < 53 - k := by
      rw [abs_of_pos hxpos]
      refine (Int.lt_zpow_iff_log_lt (by norm_num) hxpos).mp ?_
      have hm' : (m : ℚ) < 2 ^ (53 : ℕ) := by exact_mod_cast hm
      have h2k : (0 : ℚ) < 2 ^ k := by positivity
      show (m : ℚ) / 2 ^ k < ((2 : ℕ) : ℚ) ^ ((53 : ℤ) - k)
      rw [div_lt_iff₀ h2k]
      calc (m : ℚ) < 2 ^ (53 : ℕ) := hm'
        _ = ((2 : ℕ) : ℚ) ^ ((53 : ℤ) - k) * 2 ^ k := by
          rw [← zpow_natCast (2 : ℚ) k, Nat.cast_ofNat, ← zpow_add₀ (by norm_num)]
          norm_num
    -- the distance between the exponent of `x` and the exponent of its denominator
    have hn : ∃ n : ℕ, (n : ℤ) = 52 - Int.log 2 |x| - k :=
      ⟨(52 - Int.log 2 |x| - k).toNat, by omega⟩
    rcases hn with ⟨n, hn⟩
    refine roundDouble_of_multiple (n := m * 2 ^ n) ?_
    have hu : ulp x = 2 ^ (-(n : ℤ) - k) := by
      unfold ulp
      congr 1
      omega
    rw [hu, hx]
    push_cast
    rw [zpow_sub₀ (by norm_num), zpow_neg, zpow_natCast, zpow_natCast]
    field_simp

end CExercises
