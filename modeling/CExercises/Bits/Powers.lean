import CExercises.Bits.Def
import Mathlib.Order.Bounds.Basic
import Mathlib.Tactic.TFAE

/-!
# The bit helpers agree

On every `uint32_t` the smearing of `next_power_of_two` finds the least power of two that is not
below its argument, and the loop of `popcount` counts the set bits.  The four ways to say "power of
two" are brought to one: `x` has exactly one set bit.
-/

namespace CExercises.Bits

/-- The powers of two that are not below `n`. -/
def powersFrom (n : ℕ) : Set ℕ := {p | (∃ k, p = 2 ^ k) ∧ n ≤ p}

section

variable {x : UInt32} {t : ℕ}

lemma toNat_lt (x : UInt32) : x.toNat < 2 ^ 32 := UInt32.toNat_lt x

/-! ## `next_power_of_two` -/

/-- The five shift-or steps, on the number behind the word. -/
lemma smeared_word (x : UInt32) :
    let y := x ||| x >>> 1
    let y := y ||| y >>> 2
    let y := y ||| y >>> 4
    let y := y ||| y >>> 8
    let y := y ||| y >>> 16
    y.toNat = 2 ^ x.toNat.size - 1 := by
  have h₁ := (smeared_self x.toNat).step (k := 1) (by omega)
  have h₂ := h₁.step (k := 2) (by omega)
  have h₄ := h₂.step (k := 4) (by omega)
  have h₈ := h₄.step (k := 8) (by omega)
  have h₁₆ := h₈.step (k := 16) (by omega)
  rw [← h₁₆.eq_ones (toNat_lt x)]
  simp only [UInt32.toNat_or, UInt32.toNat_shiftRight]
  rfl

/-- Between the two guards the result is `2 ^ size (x - 1)`. -/
lemma toNat_nextPowerOfTwo (h : x ≠ 0) (hle : x.toNat ≤ 2 ^ 31) :
    (nextPowerOfTwo x).toNat = 2 ^ (x.toNat - 1).size := by
  have hpos := toNat_ne_zero h
  have hguard : ¬ x > 0x80000000 := by
    rw [gt_iff_lt, UInt32.lt_iff_toNat_lt]
    simpa using hle
  have hsize : (x.toNat - 1).size ≤ 31 := Nat.size_le.mpr (by omega)
  have hpow : 2 ^ (x.toNat - 1).size ≤ 2 ^ 31 := Nat.pow_le_pow_right (by omega) hsize
  have hsmear := smeared_word (x - 1)
  simp only at hsmear
  rw [nextPowerOfTwo, if_neg h, if_neg hguard, UInt32.toNat_add, hsmear, toNat_pred h,
    UInt32.toNat_one, Nat.sub_add_cancel (Nat.two_pow_pos _), Nat.mod_eq_of_lt (by omega)]

/-- `2 ^ size (n - 1)` is the least power of two that is not below `n`. -/
lemma isLeast_two_pow_size {n : ℕ} (hn : n ≠ 0) :
    IsLeast (powersFrom n) (2 ^ (n - 1).size) := by
  refine ⟨⟨⟨_, rfl⟩, ?_⟩, ?_⟩
  · have hlt := Nat.lt_size_self (n - 1)
    omega
  · rintro p ⟨⟨k, rfl⟩, hk⟩
    exact Nat.pow_le_pow_right (by omega) (Nat.size_le.mpr (by omega))

lemma isLeast_nextPowerOfTwo (hle : x.toNat ≤ 2 ^ 31) :
    IsLeast (powersFrom x.toNat) (nextPowerOfTwo x).toNat := by
  by_cases h : x = 0
  · subst h
    refine ⟨⟨⟨0, rfl⟩, Nat.zero_le _⟩, ?_⟩
    rintro p ⟨⟨k, rfl⟩, _⟩
    exact Nat.one_le_two_pow
  · rw [toNat_nextPowerOfTwo h hle]
    exact isLeast_two_pow_size (toNat_ne_zero h)

lemma nextPowerOfTwo_of_lt (hlt : 2 ^ 31 < x.toNat) : nextPowerOfTwo x = 0 := by
  have hne : x ≠ 0 := by
    rintro rfl
    simp at hlt
  have hguard : x > 0x80000000 := by
    rw [gt_iff_lt, UInt32.lt_iff_toNat_lt]
    simpa using hlt
  rw [nextPowerOfTwo, if_neg hne, if_pos hguard]

/-! ## `popcount` -/

/-- **The loop of `popcount`** adds the number of set bits. -/
lemma popcountFrom_eq (x : UInt32) (count : ℤ) :
    popcountFrom x count = count + (setBits 32 x.toNat).card := by
  induction x, count using popcountFrom.induct with
  | case1 x count h ih =>
      rcases exists_isLowestBit (toNat_ne_zero h) with ⟨t, ht⟩
      have hmem := ht.mem_setBits (toNat_lt x)
      have hcard := Finset.card_erase_add_one hmem
      rw [popcountFrom, dif_pos h, ih, toNat_and_pred h, ht.setBits_and_pred, ← hcard]
      push_cast
      omega
  | case2 x count h =>
      have hzero : x = 0 := by simpa using h
      subst hzero
      rw [popcountFrom, dif_neg h, UInt32.toNat_zero, setBits_zero]
      simp

lemma popcount_eq (x : UInt32) : popcount x = (setBits 32 x.toNat).card := by
  rw [popcount, popcountFrom_eq, Int.zero_add]

/-! ## One set bit -/

lemma ne_zero_of_toNat_eq (ht : x.toNat = 2 ^ t) : x ≠ 0 := by
  rintro rfl
  have hpos := Nat.two_pow_pos t
  rw [UInt32.toNat_zero] at ht
  omega

/-- A word with one set bit is a power of two. -/
lemma card_setBits_eq_one_iff (x : UInt32) :
    (setBits 32 x.toNat).card = 1 ↔ ∃ t, x.toNat = 2 ^ t := by
  rw [Finset.card_eq_one]
  constructor
  · rintro ⟨t, ht⟩
    refine ⟨t, Nat.eq_of_testBit_eq fun i => ?_⟩
    have hi := @mem_setBits 32 x.toNat i
    rw [ht, Finset.mem_singleton] at hi
    rw [Nat.testBit_two_pow, Bool.eq_iff_iff, decide_eq_true_eq]
    constructor
    · intro hbit
      exact (hi.mpr ⟨lt_of_testBit (toNat_lt x) hbit, hbit⟩).symm
    · intro hti
      exact (hi.mp hti.symm).2
  · rintro ⟨t, ht⟩
    refine ⟨t, Finset.ext fun i => ?_⟩
    have hlow : x.toNat.testBit t = true := by simp [ht]
    rw [mem_setBits, ht, Nat.testBit_two_pow, decide_eq_true_eq, Finset.mem_singleton]
    constructor
    · rintro ⟨_, hti⟩
      exact hti.symm
    · rintro rfl
      exact ⟨lt_of_testBit (toNat_lt x) hlow, rfl⟩

lemma isPowerOfTwo_iff (x : UInt32) : isPowerOfTwo x = true ↔ ∃ t, x.toNat = 2 ^ t := by
  by_cases h : x = 0
  · subst h
    refine iff_of_false (by simp [isPowerOfTwo]) ?_
    rintro ⟨t, ht⟩
    exact ne_zero_of_toNat_eq ht rfl
  · have hcleared : isPowerOfTwo x = true ↔ (x &&& (x - 1)).toNat = 0 := by
      simp [isPowerOfTwo, h, ← UInt32.toNat_inj]
    rw [hcleared, toNat_and_pred h,
      Nat.and_sub_one_eq_zero_iff_isPowerOfTwo (toNat_ne_zero h)]
    rfl

lemma toNat_lowestSetBit (ht : IsLowestBit x.toNat t) : (lowestSetBit x).toNat = 2 ^ t := by
  have hlt := toNat_lt x
  have hpos : 0 < x.toNat :=
    Nat.lt_of_lt_of_le (Nat.two_pow_pos t) (Nat.ge_two_pow_of_testBit ht.set)
  have hneg : (-x).toNat = 2 ^ 32 - x.toNat := by
    have hsize : UInt32.size = 2 ^ 32 := rfl
    rw [UInt32.toNat_neg, hsize, Nat.mod_eq_of_lt (by omega)]
  rw [lowestSetBit, UInt32.toNat_and, hneg, ht.and_neg hlt]

lemma isLowestBit_two_pow (t : ℕ) : IsLowestBit (2 ^ t) t := by
  refine ⟨Nat.testBit_two_pow_self, fun i hi => ?_⟩
  exact Nat.testBit_two_pow_of_ne (by omega)

lemma lowestSetBit_eq_self_iff (x : UInt32) :
    x ≠ 0 ∧ lowestSetBit x = x ↔ ∃ t, x.toNat = 2 ^ t := by
  constructor
  · rintro ⟨h, hself⟩
    rcases exists_isLowestBit (toNat_ne_zero h) with ⟨t, ht⟩
    refine ⟨t, ?_⟩
    rw [← toNat_lowestSetBit ht, hself]
  · rintro ⟨t, ht⟩
    have hlow : IsLowestBit x.toNat t := by
      rw [ht]
      exact isLowestBit_two_pow t
    exact ⟨ne_zero_of_toNat_eq ht, UInt32.toNat_inj.mp (by rw [toNat_lowestSetBit hlow, ht])⟩

lemma nextPowerOfTwo_eq_self_iff (x : UInt32) :
    nextPowerOfTwo x = x ↔ ∃ t, x.toNat = 2 ^ t := by
  constructor
  · intro hself
    by_cases hle : x.toNat ≤ 2 ^ 31
    · have hleast := isLeast_nextPowerOfTwo hle
      rw [hself] at hleast
      exact hleast.1.1
    · rw [nextPowerOfTwo_of_lt (Nat.not_le.mp hle)] at hself
      rw [← hself, UInt32.toNat_zero] at hle
      omega
  · rintro ⟨t, ht⟩
    have hlt := toNat_lt x
    rw [ht] at hlt
    have htop : t ≤ 31 := Nat.lt_succ_iff.mp ((Nat.pow_lt_pow_iff_right (by omega)).mp hlt)
    have hle : x.toNat ≤ 2 ^ 31 := by
      rw [ht]
      exact Nat.pow_le_pow_right (by omega) htop
    have hself : IsLeast (powersFrom x.toNat) x.toNat :=
      ⟨⟨⟨t, ht⟩, Nat.le_refl _⟩, fun p hp => hp.2⟩
    exact UInt32.toNat_inj.mp ((isLeast_nextPowerOfTwo hle).unique hself)

end

/-- **`next_power_of_two`** is exact on all of `uint32_t`: the least power of two that is not below
`x`, and `0` where that power would be `2 ^ 32`. -/
theorem next_power_of_two_exact (x : UInt32) :
    (x.toNat ≤ 2 ^ 31 → IsLeast (powersFrom x.toNat) (nextPowerOfTwo x).toNat)
      ∧ (x = 0 → nextPowerOfTwo x = 1) ∧ (2 ^ 31 < x.toNat → nextPowerOfTwo x = 0) := by
  refine ⟨isLeast_nextPowerOfTwo, ?_, nextPowerOfTwo_of_lt⟩
  rintro rfl
  rfl

/-- **The helpers agree.**  `popcount` ends with the number of set bits, and the four ways to ask
for a power of two give the same answer for every word. -/
theorem bit_helpers_agree (x : UInt32) :
    popcount x = ((Finset.range 32).filter fun i => x.toNat.testBit i = true).card
      ∧ List.TFAE [isPowerOfTwo x = true, popcount x = 1, x ≠ 0 ∧ lowestSetBit x = x,
          nextPowerOfTwo x = x] := by
  refine ⟨popcount_eq x, ?_⟩
  have hpopcount : popcount x = 1 ↔ ∃ t, x.toNat = 2 ^ t := by
    rw [popcount_eq, ← card_setBits_eq_one_iff]
    omega
  tfae_have 1 ↔ 2 := by rw [isPowerOfTwo_iff, hpopcount]
  tfae_have 2 ↔ 3 := by rw [lowestSetBit_eq_self_iff, hpopcount]
  tfae_have 3 ↔ 4 := by rw [lowestSetBit_eq_self_iff, nextPowerOfTwo_eq_self_iff]
  tfae_finish

end CExercises.Bits
