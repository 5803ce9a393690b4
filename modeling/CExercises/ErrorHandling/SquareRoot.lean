import CExercises.Core.Newton
import CExercises.ErrorHandling.Def
import Mathlib.Data.Int.Sqrt

/-!
# The integer square root

`risky_sqrt_approx` runs twenty steps of Newton's iteration from `r = x` and prints where they end.

The steps are safe as long as `r` stays between `1` and `x`, since then `r + x/r` is at most
`x + 1`; only at `x = INT_MAX` is that too much, and there the very first step computes it.

Nineteen steps are enough to come within one of the root (`iterate_le_succ_sqrt`), so the twentieth
arrives, except just below a square, and no later step leaves (`step_near`).  For `x = n * n - 1`
the iteration ends up going to and fro between `n - 1` and `n`, and what is printed is decided by
the parity of the number of steps it took to reach `n` first.  `strayRanges` are the `n` for which
that number is even.
-/

namespace CExercises.ErrorHandling

open CExercises.Newton (step Within Closes)

variable {x r : ℕ}

/-! ## Safety -/

lemma add_div_le (hr : 0 < r) (hrx : r ≤ x) : r + x / r ≤ x + 1 := by
  have hq : 1 ≤ x / r := (Nat.one_le_div_iff hr).mpr hrx
  have hprod : r * (x / r) ≤ x := Nat.mul_div_le x r
  nlinarith

lemma newtonStep_eq (hx : (x : ℤ) < INT_MAX) (hr : 0 < r) (hrx : r ≤ x) :
    newtonStep x r = .ok (step x r : ℕ) := by
  have hsum := add_div_le hr hrx
  rw [newtonStep, intDiv_natCast hx.le hr, ok_bind, intAdd_natCast (by omega), ok_bind]
  exact intDiv_natCast (by omega) (by omega : 0 < 2)

lemma step_bounds (hr : 0 < r) (hrx : r ≤ x) : 0 < step x r ∧ step x r ≤ x := by
  have hsum := add_div_le hr hrx
  have hq : 1 ≤ x / r := (Nat.one_le_div_iff hr).mpr hrx
  unfold step
  omega

lemma newtonLoop_eq (h0 : 0 < x) (hx : (x : ℤ) < INT_MAX) (i : ℕ) :
    newtonLoop x i = .ok ((step x)^[i] x : ℕ) ∧ 0 < (step x)^[i] x ∧ (step x)^[i] x ≤ x := by
  induction i with
  | zero => exact ⟨rfl, h0, le_refl x⟩
  | succ i ih =>
      obtain ⟨hrun, hlo, hhi⟩ := ih
      rw [Function.iterate_succ_apply']
      refine ⟨?_, step_bounds hlo hhi⟩
      rw [newtonLoop, hrun, ok_bind, newtonStep_eq hx hlo hhi]

lemma riskySqrtApprox_eq (h0 : 0 < x) (hx : (x : ℤ) < INT_MAX) :
    riskySqrtApprox x = .ok (.returns (.isqrt x ((step x)^[20] x : ℕ))) := by
  have hneg : ¬ (x : ℤ) < 0 := by omega
  have hzero : (x : ℤ) ≠ 0 := by omega
  simp only [riskySqrtApprox, if_neg hneg, if_neg hzero, (newtonLoop_eq h0 hx 20).1, ok_bind,
    pure_eq_ok]

/-- The first pass at `INT_MAX` adds `1` to `INT_MAX`. -/
lemma not_safe_INT_MAX :
    ¬ ∃ r, newtonLoop INT_MAX 0 = .ok r ∧ 1 ≤ r ∧ r + INT_MAX.tdiv r ≤ INT_MAX := by
  rintro ⟨r, hrun, _, hsum⟩
  obtain rfl : INT_MAX = r := Except.ok.inj hrun
  exact absurd hsum (by decide)

/-- **The loop is safe below `INT_MAX`**: no pass divides by zero or overflows. -/
theorem newton_loop_safe_iff (x : ℤ) (hpos : 0 < x) (hint : FitsInt x) :
    ((∀ i < 20, ∃ r, newtonLoop x i = .ok r ∧ 1 ≤ r ∧ r + x.tdiv r ≤ INT_MAX)
      ∧ ∃ line, riskySqrtApprox x = .ok (.returns line)) ↔ x ≠ INT_MAX := by
  constructor
  · rintro ⟨hpass, _⟩ rfl
    exact not_safe_INT_MAX (hpass 0 (by omega))
  · intro hne
    lift x to ℕ using hpos.le
    have h0 : 0 < x := by omega
    have hx : (x : ℤ) < INT_MAX := by
      have := hint.2
      omega
    refine ⟨fun i _ => ?_, _, riskySqrtApprox_eq h0 hx⟩
    obtain ⟨hrun, hlo, hhi⟩ := newtonLoop_eq h0 hx i
    refine ⟨_, hrun, by omega, ?_⟩
    have hsum := add_div_le hlo hhi
    rw [← Int.ofNat_tdiv]
    omega

/-- A square, as in the demonstration. -/
theorem newton_loop_safe_iff_144 :
    (0 : ℤ) < 144 ∧ FitsInt 144 ∧ (∀ i < 20, ∃ r, newtonLoop 144 i = .ok r ∧ 1 ≤ r
      ∧ r + (144 : ℤ).tdiv r ≤ INT_MAX) :=
  ⟨by decide, by decide, ((newton_loop_safe_iff 144 (by decide) (by decide)).mpr (by decide)).1⟩

theorem newton_loop_overflows :
    riskySqrtApprox INT_MAX = .error .overflow
      ∧ ¬ ∀ i < 20, ∃ r, newtonLoop INT_MAX i = .ok r ∧ 1 ≤ r
          ∧ r + INT_MAX.tdiv r ≤ INT_MAX := by
  refine ⟨by decide, fun hpass => ?_⟩
  exact not_safe_INT_MAX (hpass 0 (by omega))

/-! ## Where the steps end -/

/-- The `n` for which twenty steps from `n * n - 1` end at `n`. -/
def strayRanges : List (ℕ × ℕ) :=
  [(3, 4), (7, 10), (19, 32), (56, 99), (177, 320), (585, 1072), (1980, 1983), (1986, 3683),
    (6886, 12908), (24305, 45885), (45904, 45907)]

/-- `x` lies just below the square of a number in `strayRanges`. -/
def Strays (x : ℤ) : Prop := ∃ n : ℕ, x + 1 = n * n ∧ Within strayRanges n

/-- The root of an `int` below `INT_MAX`. -/
lemma sqrt_le_of_lt (hx : (x : ℤ) < INT_MAX) : x.sqrt ≤ 46340 := by
  unfold INT_MAX at hx
  rw [← Nat.lt_succ_iff, Nat.sqrt_lt]
  omega

/-- One run of the bound, for all roots from `a` to `b`. -/
lemma iterate_le_succ_of_above (a b : ℕ) (ha : 0 < a) (hrun : (Newton.above a)^[19] (b * b + b) ≤ 1)
    (has : a ≤ x.sqrt) (hsb : x.sqrt ≤ b) :
    x.sqrt ≤ (step x)^[19] x ∧ (step x)^[19] x ≤ x.sqrt + 1 := by
  obtain ⟨hlo, hhi⟩ := Newton.iterate_step_le ha has hsb (Nat.sqrt_le x) (Nat.lt_succ_sqrt x) 19
  exact ⟨hlo, by omega⟩

lemma iterate_le_succ_sqrt (h0 : 0 < x) (hx : (x : ℤ) < INT_MAX) :
    x.sqrt ≤ (step x)^[19] x ∧ (step x)^[19] x ≤ x.sqrt + 1 := by
  have hs0 : 0 < x.sqrt := Nat.sqrt_pos.mpr h0
  have hs := sqrt_le_of_lt hx
  rcases Nat.lt_or_ge x.sqrt 85 with h | h₁
  · exact iterate_le_succ_of_above 1 84 (by omega) (by decide +kernel) hs0 (by omega)
  · rcases Nat.lt_or_ge x.sqrt 4134 with h | h₂
    · exact iterate_le_succ_of_above 85 4133 (by omega) (by decide +kernel) h₁ (by omega)
    · rcases Nat.lt_or_ge x.sqrt 21895 with h | h₃
      · exact iterate_le_succ_of_above 4134 21894 (by omega) (by decide +kernel) h₂ (by omega)
      · exact iterate_le_succ_of_above 21895 46340 (by omega) (by decide +kernel) h₃ hs

/-- A step from within one of the root ends at the root or, just below a square, at the number whose
square that is. -/
lemma step_near (h0 : 0 < x) (hlo : x.sqrt ≤ r) (hhi : r ≤ x.sqrt + 1) :
    step x r = x.sqrt
      ∨ (step x r = x.sqrt + 1 ∧ x + 1 = (x.sqrt + 1) * (x.sqrt + 1)) := by
  have hs0 : 0 < x.sqrt := Nat.sqrt_pos.mpr h0
  rcases Newton.step_eq_of_le_succ hs0 (Nat.sqrt_le x) (Nat.lt_succ_sqrt x) hlo hhi with
    h | ⟨hsq, hr⟩
  · exact Or.inl h
  · have hup := Newton.step_pred (show 1 < x.sqrt + 1 by omega)
    rw [← hsq, Nat.add_sub_cancel, Nat.add_sub_cancel, ← hr] at hup
    exact Or.inr ⟨by rw [hup, hr], hsq⟩

/-- From the nineteenth step on the iteration stays within one of the root. -/
lemma iterate_le_succ_sqrt_of_le (h0 : 0 < x) (hx : (x : ℤ) < INT_MAX) {k : ℕ} (hk : 19 ≤ k) :
    x.sqrt ≤ (step x)^[k] x ∧ (step x)^[k] x ≤ x.sqrt + 1 := by
  induction k, hk using Nat.le_induction with
  | base => exact iterate_le_succ_sqrt h0 hx
  | succ k hk ih =>
      rw [Function.iterate_succ_apply']
      rcases step_near h0 ih.1 ih.2 with h | ⟨h, _⟩
      · omega
      · omega

/-- **The budget is enough.**  Every iterate from the twentieth on is the root or, just below a
square, possibly the number above it. -/
theorem newton_budget_enough (x : ℤ) (h1 : 1 ≤ x) (hx : x < INT_MAX) (k : ℕ) (hk : 20 ≤ k) :
    ∃ r, newtonLoop x k = .ok r ∧ (r = Int.sqrt x ∨ r = Int.sqrt x + 1)
      ∧ (r = Int.sqrt x + 1 → x + 1 = (Int.sqrt x + 1) ^ 2) := by
  lift x to ℕ using by omega
  have h0 : 0 < x := by omega
  obtain ⟨j, rfl⟩ : ∃ j, k = j + 1 := ⟨k - 1, by omega⟩
  have hnear := iterate_le_succ_sqrt_of_le h0 hx (show 19 ≤ j by omega)
  refine ⟨_, (newtonLoop_eq h0 hx (j + 1)).1, ?_⟩
  rw [Function.iterate_succ_apply', Int.sqrt_natCast]
  rcases step_near h0 hnear.1 hnear.2 with h | ⟨h, hsq⟩
  · rw [h]
    refine ⟨Or.inl rfl, fun hup => ?_⟩
    omega
  · rw [h]
    refine ⟨Or.inr (by push_cast; rfl), fun _ => ?_⟩
    rw [sq]
    exact_mod_cast hsq

/-- Just below a square, at an odd number of steps. -/
theorem newton_budget_enough_eight :
    (1 : ℤ) ≤ 8 ∧ (8 : ℤ) < INT_MAX ∧ ∃ r, newtonLoop 8 21 = .ok r
      ∧ (r = Int.sqrt 8 ∨ r = Int.sqrt 8 + 1)
      ∧ (r = Int.sqrt 8 + 1 → 8 + 1 = (Int.sqrt 8 + 1) ^ 2) :=
  ⟨by decide, by decide, newton_budget_enough 8 (by decide) (by decide) 21 (by decide)⟩

lemma alternates_strayRanges : Newton.alternatesOn 20 20 46340 2 strayRanges = true := by
  decide +kernel

/-- The square above `x` is that of the next number after its root. -/
lemma strays_iff :
    Strays x ↔ x + 1 = (x.sqrt + 1) * (x.sqrt + 1) ∧ Within strayRanges (x.sqrt + 1) := by
  constructor
  · rintro ⟨n, hn, hin⟩
    have hsq : x + 1 = n * n := by exact_mod_cast hn
    have hlo := Nat.sqrt_le x
    have hhi : x < (x.sqrt + 1) * (x.sqrt + 1) := Nat.lt_succ_sqrt x
    have hlt : x.sqrt < n := by
      by_contra hle
      have := Nat.mul_self_le_mul_self (Nat.le_of_not_lt hle)
      omega
    have hle : n ≤ x.sqrt + 1 := Nat.mul_self_le_mul_self_iff.mp (by omega)
    obtain rfl : n = x.sqrt + 1 := by omega
    exact ⟨hsq, hin⟩
  · rintro ⟨hsq, hin⟩
    exact ⟨x.sqrt + 1, by exact_mod_cast hsq, hin⟩

/-- Twenty steps end at the root, unless they stray. -/
lemma iterate_eq_sqrt_iff (h0 : 0 < x) (hx : (x : ℤ) < INT_MAX) :
    (step x)^[20] x = x.sqrt ↔ ¬ Strays x := by
  have hs0 : 0 < x.sqrt := Nat.sqrt_pos.mpr h0
  rw [strays_iff]
  by_cases hsq : x + 1 = (x.sqrt + 1) * (x.sqrt + 1)
  · have hn : x.sqrt + 1 ≤ 46340 := by
      unfold INT_MAX at hx
      by_contra hgt
      have := Nat.mul_self_le_mul_self (show 46341 ≤ x.sqrt + 1 by omega)
      omega
    obtain ⟨k, hcl, hlt, hk⟩ := Newton.closes_of_alternatesOn (by omega) alternates_strayRanges
      (by omega : 2 ≤ x.sqrt + 1) hn
    have hend := hcl.iterate_of_le (by omega) hlt.le
    have hx' : (x.sqrt + 1) * (x.sqrt + 1) - 1 = x := by omega
    rw [hx'] at hend
    rw [hend, ← hk]
    constructor
    · rintro h ⟨_, heven⟩
      omega
    · intro h
      have hodd : ¬ k % 2 = 0 := fun heven => h ⟨hsq, heven⟩
      omega
  · obtain ⟨hlo, hhi⟩ := iterate_le_succ_sqrt h0 hx
    rw [Function.iterate_succ_apply']
    rcases step_near h0 hlo hhi with h | ⟨_, h⟩
    · exact iff_of_true h fun hstray => hsq hstray.1
    · exact absurd h hsq

/-- **What is printed is the integer square root**, except just below some of the squares. -/
theorem isqrt_exact_iff (x : ℤ) (h0 : 0 ≤ x) (hx : x < INT_MAX) :
    (∃ line, riskySqrtApprox x = .ok (.returns line) ∧ line.root * line.root ≤ x
      ∧ x < (line.root + 1) * (line.root + 1)) ↔ ¬ Strays x := by
  lift x to ℕ using h0
  rcases Nat.eq_zero_or_pos x with rfl | hpos
  · have hout : ¬ Strays ((0 : ℕ) : ℤ) := by
      rw [strays_iff]
      rintro ⟨_, ab, hab, hle, _⟩
      revert ab
      decide
    exact iff_of_true ⟨.sqrtZero, rfl, by decide, by decide⟩ hout
  · rw [← iterate_eq_sqrt_iff hpos hx, riskySqrtApprox_eq hpos hx]
    constructor
    · rintro ⟨_, ⟨rfl⟩, hlo, hhi⟩
      simp only [SqrtLine.root] at hlo hhi
      exact Nat.eq_sqrt.mpr ⟨by exact_mod_cast hlo, by exact_mod_cast hhi⟩
    · intro h
      refine ⟨_, rfl, ?_, ?_⟩
      · simp only [SqrtLine.root, h]
        exact_mod_cast Nat.sqrt_le x
      · simp only [SqrtLine.root, h]
        exact_mod_cast Nat.lt_succ_sqrt x

/-- Between two squares nothing can go wrong. -/
theorem isqrt_exact_iff_between_squares :
    (0 : ℤ) ≤ 1000000 ∧ (1000000 : ℤ) < INT_MAX ∧ ¬ Strays 1000000
      ∧ ∃ line, riskySqrtApprox 1000000 = .ok (.returns line) ∧ line.root * line.root ≤ 1000000
        ∧ 1000000 < (line.root + 1) * (line.root + 1) := by
  have hout : ¬ Strays ((1000000 : ℕ) : ℤ) := by
    rintro ⟨n, hn, -⟩
    have hsq : 1000000 + 1 = n * n := by exact_mod_cast hn
    have hlo : 1000 < n := by nlinarith
    nlinarith
  exact ⟨by decide, by decide, hout,
    (isqrt_exact_iff 1000000 (by decide) (by decide)).mpr hout⟩

/-- `isqrt(8) = 3`. -/
theorem isqrt_prints_three_for_eight :
    riskySqrtApprox 8 = .ok (.returns (.isqrt 8 3))
      ∧ ¬ ∃ line, riskySqrtApprox 8 = .ok (.returns line) ∧ line.root * line.root ≤ 8
          ∧ 8 < (line.root + 1) * (line.root + 1) := by
  have hrun : riskySqrtApprox 8 = .ok (.returns (.isqrt 8 3)) := by decide +kernel
  refine ⟨hrun, ?_⟩
  rw [hrun]
  rintro ⟨_, ⟨rfl⟩, hlo, _⟩
  exact absurd hlo (by decide)

end CExercises.ErrorHandling
