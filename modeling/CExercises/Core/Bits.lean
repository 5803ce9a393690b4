import Mathlib.Algebra.Group.Nat.Defs
import Mathlib.Data.Finset.Card
import Mathlib.Data.Finset.Range
import Mathlib.Data.Nat.Find
import Mathlib.Data.Nat.Size

/-!
# Bit tricks

What the usual tricks do to the bits of a number.  Subtracting one flips the lowest set bit and the
zeros below it (`IsLowestBit.testBit_pred`); from this come the trick that clears the lowest set bit
and the one that isolates it.  Or-ing a number with itself shifted right spreads every set bit
downwards, and after enough shifts every bit below the highest is set (`Smeared`).
-/

namespace CExercises

/-- `t` is the lowest set bit of `x`. -/
structure IsLowestBit (x t : ℕ) : Prop where
  set : x.testBit t = true
  below : ∀ i, i < t → x.testBit i = false

/-- The set bits of `x` among the lowest `w`. -/
def setBits (w x : ℕ) : Finset ℕ := (Finset.range w).filter fun i => x.testBit i = true

/-- Bit `i` of `y` says whether one of the `s` bits of `x` from `i` on is set. -/
def Smeared (x s y : ℕ) : Prop :=
  ∀ i, y.testBit i = true ↔ ∃ j, i ≤ j ∧ j < i + s ∧ x.testBit j = true

section

variable {w x y s t i k : ℕ}

/-- A number below `2 ^ w` has no bit from `w` on. -/
lemma lt_of_testBit (hx : x < 2 ^ w) (hi : x.testBit i = true) : i < w := by
  by_contra hge
  have hle := Nat.ge_two_pow_of_testBit hi
  have hpow := Nat.pow_le_pow_right (n := 2) (by omega) (Nat.not_lt.mp hge)
  omega

/-! ## The lowest set bit -/

lemma exists_isLowestBit (hx : x ≠ 0) : ∃ t, IsLowestBit x t := by
  have hset := Nat.exists_testBit_of_ne_zero hx
  refine ⟨Nat.find hset, Nat.find_spec hset, fun i hi => ?_⟩
  simpa using Nat.find_min hset hi

/-- Below its lowest set bit a number is a power of two. -/
lemma IsLowestBit.mod_eq (h : IsLowestBit x t) : x % 2 ^ (t + 1) = 2 ^ t := by
  refine Nat.eq_of_testBit_eq fun i => ?_
  rw [Nat.testBit_mod_two_pow, Nat.testBit_two_pow]
  rcases Nat.lt_trichotomy i t with hi | rfl | hi
  · rw [h.below i hi, Bool.and_false]
    simp
    omega
  · simp [h.set]
  · have hlt : ¬ i < t + 1 := by omega
    have hne : t ≠ i := by omega
    simp [hlt, hne]

lemma IsLowestBit.testBit_pred (h : IsLowestBit x t) (i : ℕ) :
    (x - 1).testBit i = (decide (i < t) || (x.testBit i && decide (i ≠ t))) := by
  have hpos := Nat.two_pow_pos t
  have hcut := Nat.div_add_mod x (2 ^ (t + 1))
  rw [h.mod_eq] at hcut
  have hpred : x - 1 = 2 ^ (t + 1) * (x / 2 ^ (t + 1)) + (2 ^ t - 1) := by omega
  have hlt : 2 ^ t < 2 ^ (t + 1) := Nat.pow_lt_pow_right (by omega) (by omega)
  have hx : x.testBit i
      = if i < t + 1 then decide (t = i) else (x / 2 ^ (t + 1)).testBit (i - (t + 1)) := by
    rw [← Nat.testBit_two_pow, ← Nat.testBit_two_pow_mul_add _ hlt, hcut]
  rw [hpred, Nat.testBit_two_pow_mul_add _ (by omega), Nat.testBit_two_pow_sub_one, hx]
  by_cases hi : i < t + 1
  · simp [hi]
    omega
  · have hge : ¬ i < t := by omega
    have hne : i ≠ t := by omega
    simp [hi, hge, hne]

/-- `x & (x - 1)` clears the lowest set bit. -/
lemma IsLowestBit.testBit_and_pred (h : IsLowestBit x t) (i : ℕ) :
    (x &&& (x - 1)).testBit i = (x.testBit i && decide (i ≠ t)) := by
  rw [Nat.testBit_and, h.testBit_pred]
  by_cases hi : i < t
  · simp [h.below i hi]
  · cases x.testBit i <;> simp [hi]

/-- `x & -x` isolates the lowest set bit. -/
lemma IsLowestBit.and_neg (h : IsLowestBit x t) (hx : x < 2 ^ w) : x &&& (2 ^ w - x) = 2 ^ t := by
  have hpos : 0 < x := Nat.lt_of_lt_of_le (Nat.two_pow_pos t) (Nat.ge_two_pow_of_testBit h.set)
  have hneg : 2 ^ w - x = 2 ^ w - (x - 1 + 1) := by rw [Nat.sub_add_cancel hpos]
  refine Nat.eq_of_testBit_eq fun i => ?_
  rw [Nat.testBit_and, hneg, Nat.testBit_two_pow_sub_succ (by omega), h.testBit_pred,
    Nat.testBit_two_pow]
  by_cases hit : t = i
  · subst hit
    simp [h.set, lt_of_testBit hx h.set]
  · by_cases hi : i < t
    · simp [h.below i hi, hit]
    · cases x.testBit i <;> simp [hi, hit, Ne.symm hit]

/-! ## The number of set bits -/

lemma mem_setBits : i ∈ setBits w x ↔ i < w ∧ x.testBit i = true := by
  simp [setBits]

lemma setBits_zero : setBits w 0 = ∅ := by simp [setBits]

lemma IsLowestBit.setBits_and_pred (h : IsLowestBit x t) :
    setBits w (x &&& (x - 1)) = (setBits w x).erase t := by
  ext i
  rw [Finset.mem_erase, mem_setBits, mem_setBits, h.testBit_and_pred]
  simp only [Bool.and_eq_true, decide_eq_true_eq]
  tauto

lemma IsLowestBit.mem_setBits (h : IsLowestBit x t) (hx : x < 2 ^ w) : t ∈ setBits w x :=
  CExercises.mem_setBits.mpr ⟨lt_of_testBit hx h.set, h.set⟩

/-! ## Smearing -/

lemma smeared_self (x : ℕ) : Smeared x 1 x := by
  intro i
  constructor
  · intro h
    exact ⟨i, Nat.le_refl _, by omega, h⟩
  · rintro ⟨j, hij, hj, hx⟩
    obtain rfl : j = i := by omega
    exact hx

/-- A shift by at most what is smeared already adds up. -/
lemma Smeared.step (h : Smeared x s y) (hk : k ≤ s) : Smeared x (s + k) (y ||| y >>> k) := by
  intro i
  rw [Nat.testBit_or, Nat.testBit_shiftRight, Bool.or_eq_true, h i, h (k + i)]
  constructor
  · rintro (⟨j, hij, hj, hx⟩ | ⟨j, hij, hj, hx⟩)
    · exact ⟨j, hij, by omega, hx⟩
    · exact ⟨j, by omega, by omega, hx⟩
  · rintro ⟨j, hij, hj, hx⟩
    by_cases hlow : j < i + s
    · exact Or.inl ⟨j, hij, hlow, hx⟩
    · exact Or.inr ⟨j, by omega, by omega, hx⟩

/-- Smeared over its whole width, a number is all ones. -/
lemma Smeared.eq_ones (h : Smeared x w y) (hx : x < 2 ^ w) : y = 2 ^ x.size - 1 := by
  refine Nat.eq_of_testBit_eq fun i => ?_
  rw [Nat.testBit_two_pow_sub_one, Bool.eq_iff_iff, h i, decide_eq_true_eq, Nat.lt_size]
  constructor
  · rintro ⟨j, hij, _, hj⟩
    exact Nat.le_trans (Nat.pow_le_pow_right (by omega) hij) (Nat.ge_two_pow_of_testBit hj)
  · intro hle
    rcases Nat.exists_ge_and_testBit_of_ge_two_pow hle with ⟨j, hij, hj⟩
    have hjw := lt_of_testBit hx hj
    exact ⟨j, hij, by omega, hj⟩

end

end CExercises
