import CExercises.Stats.Def
import Mathlib.Algebra.BigOperators.Group.List.Basic
import Mathlib.Algebra.Group.Nat.Defs
import Mathlib.Algebra.Order.Ring.Int

/-!
# When `stats_calls` counts the calls

`stats_variance` takes back the increment of the `stats_mean` it calls.  `stats_stddev` does not
take back the increment of the `stats_variance` it calls, and counts twice.  On the way to its own
count a call may lift the counter higher: by two for `stats_variance`, by three for
`stats_stddev`.
-/

namespace CExercises.Stats

/-- What a call adds to the counter. -/
def Fn.weight : Fn → ℤ
  | .stddev => 2
  | _ => 1

/-- How far a call lifts the counter on the way. -/
def Fn.peak : Fn → ℤ
  | .variance => 2
  | .stddev => 3
  | _ => 1

/-- From `k` on, a call lifts the counter by at most `peak` and leaves it `weight` higher; if that
is too high for an `int`, it overflows. -/
structure Lifts (k : ℤ) (f : Fn) (x : Except Stop (ℤ × Float)) : Prop where
  returns : k + f.peak ≤ INT_MAX → ∃ r, x = .ok (k + f.weight, r)
  overflows : INT_MAX < k + f.peak → x = .error .overflow

/-- There is room for what the calls do to a counter that stands at `k`. -/
def RoomFor : ℤ → List Call → Prop
  | _, [] => True
  | k, c :: cs => k + c.fn.peak ≤ INT_MAX ∧ RoomFor (k + c.fn.weight) cs

/-- The last call is one of `stats_variance`. -/
def EndsInVariance (cs : List Call) : Prop := ∃ c ∈ cs.getLast?, c.fn = .variance

/-- After the calls the counter is their number. -/
def CountsCalls (cs : List Call) : Prop := ∃ rets, run cs = .ok ((cs.length : ℤ), rets)

section

variable {arr : Block Float} {n i k : ℤ}

/-! ## The loops -/

lemma sumFrom_returns (term : Float → Float) (h : arr.Covers 0 (n - 1)) (hi : 0 ≤ i)
    (sum : Float) : ∃ r, sumFrom term arr n i sum = .ok r := by
  fun_induction sumFrom term arr n i sum with
  | case1 i sum hlt ih =>
      rw [h.load hi (by omega), ok_bind]
      exact ih _ (by omega)
  | case2 i sum hge => exact ⟨sum, rfl⟩

lemma bestFrom_returns (better : Float → Float → Bool) (h : arr.Covers 0 (n - 1)) (hi : 0 ≤ i)
    (m : Float) : ∃ r, bestFrom better arr n i m = .ok r := by
  fun_induction bestFrom better arr n i m with
  | case1 i m hlt ih =>
      rw [h.load hi (by omega), ok_bind]
      exact ih _ (by omega)
  | case2 i m hge => exact ⟨m, rfl⟩

/-! ## One call -/

lemma lifts_statsMean (h : arr.Covers 0 (n - 1)) (k : ℤ) : Lifts k .mean (statsMean k arr n) := by
  rcases sumFrom_returns (fun x => x) h (le_refl 0) 0 with ⟨sum, hsum⟩
  constructor
  · intro hroom
    change k + 1 ≤ INT_MAX at hroom
    refine ⟨sum / Float.ofInt n, ?_⟩
    rw [statsMean, intSucc_eq (by omega), ok_bind, hsum]
    rfl
  · intro hover
    change INT_MAX < k + 1 at hover
    rw [statsMean, intSucc, if_neg (by omega), error_bind]

lemma lifts_statsVariance (h : arr.Covers 0 (n - 1)) (hk : 0 ≤ k) :
    Lifts k .variance (statsVariance k arr n) := by
  have hmean := lifts_statsMean h (k + 1)
  constructor
  · intro hroom
    change k + 2 ≤ INT_MAX at hroom
    rcases hmean.returns (by change k + 1 + 1 ≤ INT_MAX; omega) with ⟨m, hm⟩
    rcases sumFrom_returns (fun x => (x - m) * (x - m)) h (le_refl 0) 0 with ⟨sum, hsum⟩
    have hundo : intPred (k + 1 + Fn.weight .mean) = .ok (k + 1) := by
      change intPred (k + 1 + 1) = .ok (k + 1)
      rw [intPred, if_pos (by unfold INT_MIN; omega), add_sub_cancel_right]
    refine ⟨sum / Float.ofInt n, ?_⟩
    rw [statsVariance, intSucc_eq (by omega), ok_bind, hm, ok_bind]
    simp only [hundo, ok_bind, hsum]
    rfl
  · intro hover
    change INT_MAX < k + 2 at hover
    rw [statsVariance, intSucc]
    split_ifs
    · rw [ok_bind, hmean.overflows (by change INT_MAX < k + 1 + 1; omega), error_bind]
    · rfl

lemma lifts_statsStddev (h : arr.Covers 0 (n - 1)) (hk : 0 ≤ k) :
    Lifts k .stddev (statsStddev k arr n) := by
  have hvar := lifts_statsVariance h (k := k + 1) (by omega)
  constructor
  · intro hroom
    change k + 3 ≤ INT_MAX at hroom
    have hweight : k + 1 + Fn.weight .variance = k + Fn.weight .stddev := by
      change k + 1 + 1 = k + 2
      omega
    rcases hvar.returns (by change k + 1 + 2 ≤ INT_MAX; omega) with ⟨v, hv⟩
    rw [hweight] at hv
    refine ⟨v.sqrt, ?_⟩
    rw [statsStddev, intSucc_eq (by omega), ok_bind, hv, ok_bind]
    rfl
  · intro hover
    change INT_MAX < k + 3 at hover
    rw [statsStddev, intSucc]
    split_ifs
    · rw [ok_bind, hvar.overflows (by change INT_MAX < k + 1 + 2; omega), error_bind]
    · rfl

/-- `stats_min` and `stats_max` increment once. -/
lemma lifts_statsBest {f : Fn} (hpeak : f.peak = 1) (hweight : f.weight = 1)
    (better : Float → Float → Bool) (h : arr.Covers 0 (n - 1)) (h₀ : arr.Covers 0 0) (k : ℤ) :
    Lifts k f (statsBest better k arr n) := by
  rcases bestFrom_returns better h (show (0 : ℤ) ≤ 1 by omega) (arr.cells 0) with ⟨m, hm⟩
  constructor
  · intro hroom
    rw [hpeak] at hroom
    refine ⟨m, ?_⟩
    rw [statsBest, intSucc_eq (by omega), ok_bind, h₀.load (le_refl 0) (le_refl 0), ok_bind, hm,
      hweight]
    rfl
  · intro hover
    rw [hpeak] at hover
    rw [statsBest, intSucc, if_neg (by omega), error_bind]

/-- **One call.** -/
lemma lifts_call (hk : 0 ≤ k) (c : Call) : Lifts k c.fn (call k c) := by
  rcases c with ⟨f, arr, n, hcells, hfirst⟩
  cases f with
  | mean => exact lifts_statsMean hcells k
  | variance => exact lifts_statsVariance hcells hk
  | stddev => exact lifts_statsStddev hcells hk
  | min => exact lifts_statsBest rfl rfl _ hcells (hfirst (Or.inl rfl)) k
  | max => exact lifts_statsBest rfl rfl _ hcells (hfirst (Or.inr rfl)) k

/-! ## Runs -/

lemma Fn.weight_pos (f : Fn) : 1 ≤ f.weight := by cases f <;> decide

lemma Fn.weight_eq_one_iff (f : Fn) : f.weight = 1 ↔ f ≠ .stddev := by cases f <;> decide

lemma Fn.peak_le_two {f : Fn} (hf : f ≠ .stddev) : f.peak ≤ 2 := by
  cases f with
  | stddev => exact absurd rfl hf
  | mean | variance | min | max => decide

/-- **Run.**  The calls return exactly when there is room for them, and then the counter is the sum
of their weights higher. -/
lemma runCalls_iff : ∀ (cs : List Call) {k k' : ℤ}, 0 ≤ k →
    ((∃ rets, runCalls call k cs = .ok (k', rets))
      ↔ RoomFor k cs ∧ k' = k + (cs.map fun c => c.fn.weight).sum)
  | [], k, k', _ => by simp [RoomFor, eq_comm]
  | c :: cs, k, k', hk => by
      have hlifts := lifts_call hk c
      have hnext : 0 ≤ k + c.fn.weight := by
        have hpos := c.fn.weight_pos
        omega
      have ih := @runCalls_iff cs _ k' hnext
      rw [List.map_cons, List.sum_cons, ← add_assoc]
      constructor
      · rintro ⟨rets, hrun⟩
        rcases runCalls_cons_inv hrun with ⟨k₁, r, rets', hcall, hrest, rfl⟩
        have hroom : k + c.fn.peak ≤ INT_MAX := by
          by_contra hover
          rw [hlifts.overflows (not_le.mp hover)] at hcall
          cases hcall
        rcases hlifts.returns hroom with ⟨r', hr'⟩
        rw [hr'] at hcall
        cases hcall
        rcases ih.mp ⟨rets', hrest⟩ with ⟨hroom', hk'⟩
        exact ⟨⟨hroom, hroom'⟩, hk'⟩
      · rintro ⟨⟨hroom, hroom'⟩, hk'⟩
        rcases hlifts.returns hroom with ⟨r, hr⟩
        rcases ih.mpr ⟨hroom', hk'⟩ with ⟨rets, hrest⟩
        exact ⟨r :: rets, runCalls_cons_ok hr hrest⟩

/-- The weights are the number of calls exactly when none is one of `stats_stddev`. -/
lemma sum_weight_eq_length_iff : ∀ cs : List Call,
    (cs.length : ℤ) ≤ (cs.map fun c => c.fn.weight).sum
      ∧ ((cs.map fun c => c.fn.weight).sum = cs.length ↔ ∀ c ∈ cs, c.fn ≠ .stddev)
  | [] => by simp
  | c :: cs => by
      have ih := sum_weight_eq_length_iff cs
      have hpos := c.fn.weight_pos
      simp only [List.map_cons, List.sum_cons, List.length_cons, Nat.cast_add, Nat.cast_one,
        List.forall_mem_cons]
      refine ⟨by omega, ?_⟩
      rw [← c.fn.weight_eq_one_iff, ← ih.2]
      omega

/-- Without `stats_stddev` only the last call can be short of room. -/
lemma roomFor_iff : ∀ (cs : List Call) {k : ℤ}, (∀ c ∈ cs, c.fn ≠ .stddev) →
    (RoomFor k cs ↔ cs = [] ∨ (k + cs.length ≤ INT_MAX
      ∧ (EndsInVariance cs → k + cs.length + 1 ≤ INT_MAX)))
  | [], k, _ => by simp [RoomFor]
  | [c], k, h => by
      have hc := h c (by simp)
      have hends : EndsInVariance [c] ↔ c.fn = .variance := by simp [EndsInVariance]
      simp only [RoomFor, and_true, List.cons_ne_nil, false_or, hends, List.length_singleton,
        Nat.cast_one]
      cases hf : c.fn with
      | stddev => exact absurd hf hc
      | variance =>
          simp only [Fn.peak, forall_const]
          omega
      | mean | min | max => simp [Fn.peak]
  | c :: d :: cs, k, h => by
      have hrest := roomFor_iff (d :: cs) (k := k + c.fn.weight)
        fun c hc => h c (List.mem_cons_of_mem _ hc)
      have hends : EndsInVariance (c :: d :: cs) ↔ EndsInVariance (d :: cs) := by
        simp [EndsInVariance, List.getLast?_cons_cons]
      have hc := h c (by simp)
      have hpeak := Fn.peak_le_two hc
      rw [RoomFor, hrest, hends, c.fn.weight_eq_one_iff.mpr hc]
      simp only [List.cons_ne_nil, false_or, List.length_cons, Nat.cast_add, Nat.cast_one]
      constructor
      · rintro ⟨_, hle, hvar⟩
        exact ⟨by omega, fun hend => by have := hvar hend; omega⟩
      · rintro ⟨hle, hvar⟩
        exact ⟨by omega, by omega, fun hend => by have := hvar hend; omega⟩

end

/-- **When `stats_calls` counts the calls.**  For every sequence of fewer than `2 ^ 31` calls, the
counter ends as the number of calls exactly when none of them is `stats_stddev` and the sequence
does not end in `stats_variance` as its call number `2 ^ 31 - 1`. -/
theorem stats_calls_counts_iff (cs : List Call) (hlen : cs.length < 2 ^ 31) :
    CountsCalls cs ↔ (∀ c ∈ cs, c.fn ≠ .stddev)
      ∧ ¬ (cs.length = 2 ^ 31 - 1 ∧ EndsInVariance cs) := by
  rw [CountsCalls, run, runCalls_iff cs (le_refl 0), zero_add]
  have hsum := (sum_weight_eq_length_iff cs).2
  constructor
  · rintro ⟨hroom, hcount⟩
    have hno := hsum.mp hcount.symm
    refine ⟨hno, ?_⟩
    rintro ⟨hmax, hend⟩
    rcases (roomFor_iff cs hno).mp hroom with rfl | ⟨_, hvar⟩
    · cases hmax
    · have hle := hvar hend
      unfold INT_MAX at hle
      omega
  · rintro ⟨hno, hlast⟩
    refine ⟨(roomFor_iff cs hno).mpr (Or.inr ⟨?_, fun hend => ?_⟩), (hsum.mpr hno).symm⟩
    · unfold INT_MAX
      omega
    · have hne : cs.length ≠ 2 ^ 31 - 1 := fun hmax => hlast ⟨hmax, hend⟩
      unfold INT_MAX
      omega

/-- An array of one cell. -/
def oneCell : Block Float := Block.ofCells 1 fun _ => 1

/-- A mean and then a variance. -/
theorem stats_calls_counts_iff_mean_variance :
    CountsCalls [⟨.mean, oneCell, 1, ⟨by decide, by decide⟩, by simp⟩,
      ⟨.variance, oneCell, 1, ⟨by decide, by decide⟩, by simp⟩] :=
  (stats_calls_counts_iff _ (by decide)).mpr ⟨by simp, by simp⟩

/-- One call of `stats_stddev` counts twice. -/
theorem stddev_counts_twice :
    let stddev : Call := ⟨.stddev, oneCell, 1, ⟨by decide, by decide⟩, by simp⟩
    (∃ rets, run [stddev] = .ok (2, rets)) ∧ ¬ CountsCalls [stddev] := by
  intro stddev
  have htwo : ∃ rets, run [stddev] = .ok (2, rets) :=
    (runCalls_iff [stddev] (le_refl 0)).mpr ⟨⟨by decide, trivial⟩, by decide⟩
  refine ⟨htwo, ?_⟩
  rintro ⟨rets, hone⟩
  rcases htwo with ⟨rets', htwo⟩
  rw [htwo] at hone
  cases hone

end CExercises.Stats
