import CExercises.Core.Bits

/-!
# Bit helpers

Four helpers of `bits.c` on `uint32_t`, which is `UInt32`: sums, differences and negation wrap, and
shifts by less than 32 are the usual ones.
-/

namespace CExercises.Bits

/-- `lowest_set_bit`. -/
def lowestSetBit (x : UInt32) : UInt32 := x &&& (-x)

section

variable {x : UInt32}

lemma toNat_ne_zero (h : x ≠ 0) : x.toNat ≠ 0 := fun h0 => h (UInt32.toNat_inj.mp h0)

lemma toNat_pred (h : x ≠ 0) : (x - 1).toNat = x.toNat - 1 := by
  have hpos := toNat_ne_zero h
  have hle : (1 : UInt32) ≤ x := by
    rw [UInt32.le_iff_toNat_le, UInt32.toNat_one]
    omega
  rw [UInt32.toNat_sub_of_le _ _ hle, UInt32.toNat_one]

lemma toNat_and_pred (h : x ≠ 0) : (x &&& (x - 1)).toNat = x.toNat &&& (x.toNat - 1) := by
  rw [UInt32.toNat_and, toNat_pred h]

end

/-- The loop of `popcount`: each turn clears the lowest set bit, which makes `x` smaller. -/
def popcountFrom (x : UInt32) (count : ℤ) : ℤ :=
  if h : x ≠ 0 then popcountFrom (x &&& (x - 1)) (count + 1) else count
termination_by x.toNat
decreasing_by
  rw [toNat_and_pred h]
  have hpos := toNat_ne_zero h
  exact Nat.lt_of_le_of_lt Nat.and_le_right (by omega)

/-- `popcount`. -/
def popcount (x : UInt32) : ℤ := popcountFrom x 0

/-- `is_power_of_two`. -/
def isPowerOfTwo (x : UInt32) : Bool := x ≠ 0 && (x &&& (x - 1)) = 0

/-- `next_power_of_two`. -/
def nextPowerOfTwo (x : UInt32) : UInt32 :=
  if x = 0 then 1
  else if x > 0x80000000 then 0
  else
    let x := x - 1
    let x := x ||| x >>> 1
    let x := x ||| x >>> 2
    let x := x ||| x >>> 4
    let x := x ||| x >>> 8
    let x := x ||| x >>> 16
    x + 1

end CExercises.Bits
