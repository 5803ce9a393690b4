import Mathlib.Data.Nat.Sqrt
import Mathlib.Logic.Function.Iterate
import Mathlib.Tactic.Linarith
import Mathlib.Tactic.Ring

/-!
# Newton's iteration for integer square roots

`step x r = (r + x / r) / 2`, rounded down twice.  A step never falls below the integer square root
`s` of `x` (`le_step`), so an iteration is described by its distance from `s`.

* `above` bounds the next distance by the last one.  It grows with the distance and falls with `s`,
  so one run of `above` bounds the iteration for a whole interval of roots (`iterate_step_le`).
* At distance at most one the iteration has arrived, with one exception: for `x = n * n - 1` the
  step at the root `n - 1` goes up to `n` and the next comes down again.  Where a given number of
  steps ends then depends on when `n` was first reached.  `gap` is the exact distance from `n`
  before that happens, and `Closes n d k` says that it takes `k` steps.
* `closing` computes that `k` for a whole interval of `n` by running the smallest and the largest
  gap side by side, `closesOn` halves an interval until this succeeds, and `alternatesOn` goes
  through the intervals on which the parity of `k` changes.
-/

namespace CExercises.Newton

variable {x r s e n d k : ℕ}

/-- `(r + x / r) / 2`. -/
def step (x r : ℕ) : ℕ := (r + x / r) / 2

lemma step_eq (x : ℕ) (hr : 0 < r) : step x r = (r * r + x) / (2 * r) := by
  rw [step, Nat.mul_comm 2 r, ← Nat.div_div_eq_div_mul, Nat.mul_add_div hr]

/-- The arithmetic mean of `r` and `x / r` is not below the geometric one. -/
lemma le_step (hr : 0 < r) (hs : s * s ≤ x) : s ≤ step x r := by
  rw [step_eq x hr, Nat.le_div_iff_mul_le (by omega)]
  have hamgm : 2 * (s * r) ≤ s * s + r * r := by
    have h := two_mul_le_add_sq (s : ℤ) r
    zify
    nlinarith [h]
  nlinarith [hamgm, hs]

/-! ## The distance from the root -/

/-- A bound on the distance from `s` after a step at distance `e`. -/
def above (s e : ℕ) : ℕ := e * e / (2 * (s + e)) + 1

lemma step_le (hs : 0 < s) (hx : x < (s + 1) * (s + 1)) : step x (s + e) ≤ s + above s e := by
  rw [step_eq x (by omega)]
  have hnum : (s + e) * (s + e) + x ≤ e * e + 2 * (s + e) * (s + 1) := by nlinarith [hx]
  calc ((s + e) * (s + e) + x) / (2 * (s + e))
      ≤ (e * e + 2 * (s + e) * (s + 1)) / (2 * (s + e)) := Nat.div_le_div_right hnum
    _ = s + above s e := by
        rw [Nat.add_mul_div_left _ _ (by omega), above]
        omega

/-- Compare two fractions across their denominators. -/
lemma div_le_div_of_mul_le {a b c d : ℕ} (hb : 0 < b) (hd : 0 < d) (h : a * d ≤ c * b) :
    a / b ≤ c / d := by
  rw [Nat.le_div_iff_mul_le hd]
  refine Nat.le_of_mul_le_mul_right ?_ hb
  calc a / b * d * b = a / b * b * d := Nat.mul_right_comm _ _ _
    _ ≤ a * d := Nat.mul_le_mul_right d (Nat.div_mul_le_self a b)
    _ ≤ c * b := h

lemma above_le_above {a e' : ℕ} (ha : 0 < a) (has : a ≤ s) (hee : e ≤ e') :
    above s e ≤ above a e' := by
  refine Nat.succ_le_succ (div_le_div_of_mul_le (by omega) (by omega) ?_)
  have h₁ : e * e * a ≤ e' * e' * s := Nat.mul_le_mul (Nat.mul_le_mul hee hee) has
  have h₂ : e * e * e' ≤ e' * e' * e := by nlinarith [Nat.mul_le_mul_left (e * e') hee]
  nlinarith [h₁, h₂]

/-- The iteration started at `x` itself, for all roots between `a` and `b`. -/
lemma iterate_step_le {a b : ℕ} (ha : 0 < a) (has : a ≤ s) (hsb : s ≤ b) (hs : s * s ≤ x)
    (hx : x < (s + 1) * (s + 1)) (j : ℕ) :
    s ≤ (step x)^[j] x ∧ (step x)^[j] x ≤ s + (above a)^[j] (b * b + b) := by
  induction j with
  | zero =>
      simp only [Function.iterate_zero, id]
      constructor
      · nlinarith
      · nlinarith
  | succ j ih =>
      rcases ih with ⟨hlo, hhi⟩
      rw [Function.iterate_succ_apply', Function.iterate_succ_apply']
      refine ⟨le_step (by omega) hs, ?_⟩
      obtain ⟨e, he⟩ := Nat.exists_eq_add_of_le hlo
      rw [he] at hhi ⊢
      exact (step_le (by omega) hx).trans
        (Nat.add_le_add_left (above_le_above ha has (by omega)) s)

/-- At distance at most one the next step arrives at the root, unless it stands there and `x + 1` is
the next square. -/
lemma step_eq_of_le_succ (hs : 0 < s) (hlo : s * s ≤ x) (hx : x < (s + 1) * (s + 1)) (hr : s ≤ r)
    (hr' : r ≤ s + 1) : step x r = s ∨ (x + 1 = (s + 1) * (s + 1) ∧ r = s) := by
  have hle := le_step (by omega : 0 < r) hlo
  have hge : step x r < s + 1 ∨ (x + 1 = (s + 1) * (s + 1) ∧ r = s) := by
    rw [step_eq x (by omega), Nat.div_lt_iff_lt_mul (by omega)]
    rcases Nat.le_succ_iff.mp hr' with h | rfl
    · obtain rfl : r = s := by omega
      by_cases hsq : x + 1 = (r + 1) * (r + 1)
      · exact .inr ⟨hsq, rfl⟩
      · exact .inl (by nlinarith [show x + 2 ≤ (r + 1) * (r + 1) by omega])
    · exact .inl (by nlinarith)
  rcases hge with h | h
  · exact .inl (by omega)
  · exact .inr h

/-! ## Just below a square -/

/-- The distance from `n` after a step at distance `d`, for `x = n * n - 1` and `0 < d`. -/
def gap (n d : ℕ) : ℕ := (d * d - 1) / (2 * (d + n))

lemma gap_le_gap {m d' : ℕ} (hm : 0 < m) (hmn : m ≤ n) (hdd : d ≤ d') : gap n d ≤ gap m d' := by
  have hn : gap n d ≤ gap m d := Nat.div_le_div_left (by omega) (by omega)
  refine hn.trans (div_le_div_of_mul_le (by omega) (by omega) ?_)
  rw [Nat.sub_mul, Nat.sub_mul, Nat.one_mul, Nat.one_mul]
  have h₁ : d * d ≤ d' * d' := Nat.mul_le_mul hdd hdd
  have h₂ : d * d * d' ≤ d' * d' * d := by nlinarith [Nat.mul_le_mul_left (d * d') hdd]
  have h₃ : d * d * (2 * (d' + m)) ≤ d' * d' * (2 * (d + m)) := by
    nlinarith [Nat.mul_le_mul_right m h₁, h₂]
  omega

lemma step_add (hn : 0 < n) (hd : 0 < d) : step (n * n - 1) (n + d) = n + gap n d := by
  have hsq : 1 ≤ n * n := Nat.mul_pos hn hn
  have hdq : 1 ≤ d * d := Nat.mul_pos hd hd
  have hnum : (n + d) * (n + d) + (n * n - 1) = (d * d - 1) + 2 * (d + n) * n := by
    zify [hsq, hdq]
    ring
  rw [step_eq _ (by omega), hnum, Nat.add_comm n d, Nat.add_mul_div_left _ _ (by omega), gap,
    Nat.add_comm]

lemma succ_sq_sub_one (s : ℕ) : (s + 1) * (s + 1) - 1 = s * (s + 2) := by
  have hsq : (s + 1) * (s + 1) = s * (s + 2) + 1 := by ring
  omega

/-- At `n` the iteration goes down to the root, and from there back to `n`. -/
lemma step_self (hn : 1 < n) : step (n * n - 1) n = n - 1 := by
  obtain ⟨s, rfl⟩ : ∃ s, n = s + 1 := ⟨n - 1, by omega⟩
  have hdiv : s * (s + 2) / (s + 1) = s := Nat.div_eq_of_lt_le (by nlinarith) (by nlinarith)
  rw [succ_sq_sub_one, step, hdiv]
  omega

lemma step_pred (hn : 1 < n) : step (n * n - 1) (n - 1) = n := by
  obtain ⟨s, rfl⟩ : ∃ s, n = s + 1 := ⟨n - 1, by omega⟩
  rw [succ_sq_sub_one, Nat.add_sub_cancel, step, Nat.mul_div_cancel_left _ (by omega)]
  omega

/-- The gap `d` closes after exactly `k` steps. -/
inductive Closes (n : ℕ) : ℕ → ℕ → Prop
  | zero : Closes n 0 0
  | succ {d k : ℕ} (hd : 0 < d) (h : Closes n (gap n d) k) : Closes n d (k + 1)

lemma Closes.iterate (hn : 0 < n) (h : Closes n d k) : (step (n * n - 1))^[k] (n + d) = n := by
  induction h with
  | zero => rfl
  | succ hd _ ih => rw [Function.iterate_succ_apply, step_add hn hd, ih]

lemma iterate_step_self (hn : 1 < n) (m : ℕ) : (step (n * n - 1))^[m] n = n - m % 2 := by
  induction m with
  | zero => rfl
  | succ m ih =>
      rw [Function.iterate_succ_apply', ih]
      rcases Nat.mod_two_eq_zero_or_one m with h | h
      · rw [h, Nat.sub_zero, step_self hn]
        omega
      · rw [h, step_pred hn]
        omega

/-- Where `N` steps from `n * n - 1` end. -/
lemma Closes.iterate_of_le {N : ℕ} (hn : 1 < n) (h : Closes n (n * n - 1 - n) k) (hk : k ≤ N) :
    (step (n * n - 1))^[N] (n * n - 1) = n - (N - k) % 2 := by
  have hstart : n * n - 1 = n + (n * n - 1 - n) := by
    have : n + 1 ≤ n * n := by nlinarith
    omega
  obtain ⟨m, rfl⟩ := Nat.exists_eq_add_of_le hk
  have hclose := h.iterate (by omega)
  rw [← hstart] at hclose
  rw [Nat.add_comm, Function.iterate_add_apply, hclose, iterate_step_self hn]
  congr 2
  omega

/-- Run the smallest gap `lo` and the largest gap `hi` of the interval from `a` to `b`; `none` when
one closes before the other. -/
def closing (a b : ℕ) : ℕ → ℕ → ℕ → Option ℕ
  | 0, _, _ => none
  | fuel + 1, lo, hi =>
      if hi = 0 then some 0
      else if lo = 0 then none
      else (closing a b fuel (gap b lo) (gap a hi)).map (· + 1)

lemma closes_of_closing {a b fuel lo hi : ℕ} (ha : 0 < a) (h : closing a b fuel lo hi = some k)
    (han : a ≤ n) (hnb : n ≤ b) (hlo : lo ≤ d) (hhi : d ≤ hi) : Closes n d k ∧ k < fuel := by
  induction fuel generalizing lo hi d k with
  | zero => cases h
  | succ fuel ih =>
      simp only [closing] at h
      split_ifs at h with hz hlz
      · cases h
        obtain rfl : d = 0 := by omega
        exact ⟨.zero, Nat.succ_pos fuel⟩
      · obtain ⟨k, hk, rfl⟩ := Option.map_eq_some_iff.mp h
        obtain ⟨hcl, hlt⟩ := ih hk (gap_le_gap (by omega) hnb hlo) (gap_le_gap ha han hhi)
        exact ⟨.succ (by omega) hcl, Nat.succ_lt_succ hlt⟩

/-- For every `n` from `a` to `b` the gap of `n * n - 1` closes in fewer than `N` steps, whose
number has the parity `p`. -/
def closesOn (N p : ℕ) : ℕ → ℕ → ℕ → Bool
  | 0, _, _ => false
  | fuel + 1, a, b =>
      match closing a b N (a * a - 1 - a) (b * b - 1 - b) with
      | some k => k % 2 == p
      | none => closesOn N p fuel a ((a + b) / 2) && closesOn N p fuel ((a + b) / 2 + 1) b

lemma closes_of_closesOn {N p fuel a b : ℕ} (ha : 1 < a) (h : closesOn N p fuel a b = true)
    (han : a ≤ n) (hnb : n ≤ b) : ∃ k, Closes n (n * n - 1 - n) k ∧ k < N ∧ k % 2 = p := by
  induction fuel generalizing a b with
  | zero => cases h
  | succ fuel ih =>
      simp only [closesOn] at h
      split at h
      · rename_i k hk
        have hmono : ∀ u v : ℕ, 1 < u → u ≤ v → u * u - 1 - u ≤ v * v - 1 - v := by
          intro u v hu huv
          have hsq : u * u + v ≤ v * v + u := by nlinarith
          omega
        obtain ⟨hcl, hlt⟩ := closes_of_closing (by omega) hk han hnb (hmono a n ha han)
          (hmono n b (by omega) hnb)
        exact ⟨k, hcl, hlt, by simpa using h⟩
      · rw [Bool.and_eq_true] at h
        rcases Nat.lt_or_ge ((a + b) / 2) n with hn | hn
        · exact ih (by omega) h.2 (by omega) hnb
        · exact ih ha h.1 han hn

/-- A number in one of the intervals. -/
def Within (ranges : List (ℕ × ℕ)) (n : ℕ) : Prop := ∃ ab ∈ ranges, ab.1 ≤ n ∧ n ≤ ab.2

/-- From `a` to `last` the number of steps is even on the intervals and odd between them. -/
def alternatesOn (N fuel last : ℕ) : ℕ → List (ℕ × ℕ) → Bool
  | a, [] => closesOn N 1 fuel a last
  | a, (lo, hi) :: rest =>
      decide (a < lo ∧ lo ≤ hi) && closesOn N 1 fuel a (lo - 1) && closesOn N 0 fuel lo hi
        && alternatesOn N fuel last (hi + 1) rest

lemma lt_of_alternatesOn {N fuel last a : ℕ} {ranges : List (ℕ × ℕ)}
    (h : alternatesOn N fuel last a ranges = true) : ∀ ab ∈ ranges, a < ab.1 := by
  induction ranges generalizing a with
  | nil => simp
  | cons ab rest ih =>
      simp only [alternatesOn, Bool.and_eq_true, decide_eq_true_eq] at h
      obtain ⟨⟨⟨hle, _⟩, _⟩, hrest⟩ := h
      intro cd hcd
      rcases List.mem_cons.mp hcd with rfl | hcd
      · exact hle.1
      · have := ih hrest cd hcd
        omega

lemma closes_of_alternatesOn {N fuel last a : ℕ} {ranges : List (ℕ × ℕ)} (ha : 1 < a)
    (h : alternatesOn N fuel last a ranges = true) (han : a ≤ n) (hnl : n ≤ last) :
    ∃ k, Closes n (n * n - 1 - n) k ∧ k < N ∧ (k % 2 = 0 ↔ Within ranges n) := by
  induction ranges generalizing a with
  | nil =>
      obtain ⟨k, hcl, hlt, hodd⟩ := closes_of_closesOn ha h han hnl
      exact ⟨k, hcl, hlt, by simp [Within, hodd]⟩
  | cons ab rest ih =>
      simp only [alternatesOn, Bool.and_eq_true, decide_eq_true_eq] at h
      obtain ⟨⟨⟨hle, hodd⟩, heven⟩, hrest⟩ := h
      rcases Nat.lt_or_ge n ab.1 with hn | hn
      · -- before the first interval, hence before all of them
        obtain ⟨k, hcl, hlt, hk⟩ := closes_of_closesOn ha hodd han (by omega)
        refine ⟨k, hcl, hlt, ?_⟩
        have hout : ¬ Within (ab :: rest) n := by
          rintro ⟨cd, hcd, hlo, _⟩
          rcases List.mem_cons.mp hcd with rfl | hcd
          · omega
          · have := lt_of_alternatesOn hrest cd hcd
            omega
        simp [hk, hout]
      · rcases Nat.lt_or_ge ab.2 n with hn' | hn'
        · obtain ⟨k, hcl, hlt, hk⟩ := ih (by omega) hrest hn'
          refine ⟨k, hcl, hlt, hk.trans ?_⟩
          have hne : ¬ (ab.1 ≤ n ∧ n ≤ ab.2) := by omega
          simp [Within, hne]
        · obtain ⟨k, hcl, hlt, hk⟩ := closes_of_closesOn (by omega) heven hn hn'
          have hin : Within (ab :: rest) n := ⟨ab, List.mem_cons_self, hn, hn'⟩
          exact ⟨k, hcl, hlt, by simp [hk, hin]⟩

end CExercises.Newton
