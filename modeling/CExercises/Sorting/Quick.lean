import CExercises.Sorting.Def

/-!
# Quicksort

The two scans of `partition` have no bound of their own.  What stops them is in the array: when a
round of the loop begins, no cell of `lo..i` is above the pivot and no cell of `j..hi` is below it,
so the upward scan cannot pass `j` and the downward scan cannot pass `i`.  `median_of_three` sets
this up for the first round and each exchange restores it.
-/

namespace CExercises.Sorting

section

variable {α : Type} {key : α → ℤ} {arr : Block α} {pivot : α} {lo hi i j : ℤ}

/-! ## The scans -/

/-- One step of the upward scan. -/
lemma scanUp_of_load {x : α} (hx : arr.load (i + 1) = .ok x) :
    scanUp key arr pivot i
      = if key x < key pivot then scanUp key arr pivot (i + 1) else .ok (i + 1) := by
  rw [scanUp]
  split
  · next e he =>
      rw [hx] at he
      cases he
  · next y hy =>
      rw [hx] at hy
      cases hy
      rfl

/-- One step of the downward scan. -/
lemma scanDown_of_load {x : α} (hx : arr.load (j - 1) = .ok x) :
    scanDown key arr pivot j
      = if key x > key pivot then scanDown key arr pivot (j - 1) else .ok (j - 1) := by
  rw [scanDown]
  split
  · next e he =>
      rw [hx] at he
      cases he
  · next y hy =>
      rw [hx] at hy
      cases hy
      rfl

/-- The upward scan stops at the first cell that is not below the pivot, if there is one. -/
lemma scanUp_spec (stop : ℤ) (hcov : arr.Covers lo stop) (hstop : key pivot ≤ key (arr.cells stop))
    (m : ℕ) : ∀ i, (stop - i).toNat = m → lo ≤ i → i < stop →
    ∃ p, scanUp key arr pivot i = .ok p ∧ i < p ∧ p ≤ stop ∧ key pivot ≤ key (arr.cells p)
      ∧ ∀ k, i < k → k < p → key (arr.cells k) ≤ key pivot := by
  induction m with
  | zero =>
      intro i hm hlo hlt
      omega
  | succ m ih =>
      intro i hm hlo hlt
      rw [scanUp_of_load (hcov.load (show lo ≤ i + 1 by omega) (show i + 1 ≤ stop by omega))]
      split_ifs with hless
      · have hne : i + 1 ≠ stop := by
          intro heq
          rw [heq] at hless
          omega
        rcases ih (i + 1) (by omega) (by omega) (by omega) with ⟨p, hrun, hp, hps, hge, hbelow⟩
        refine ⟨p, hrun, by omega, hps, hge, fun k hk hkp => ?_⟩
        by_cases hki : k = i + 1
        · rw [hki]
          exact le_of_lt hless
        · exact hbelow k (by omega) hkp
      · exact ⟨i + 1, rfl, by omega, by omega, not_lt.mp hless, fun k hk hkp => by omega⟩

/-- The downward scan stops at the first cell that is not above the pivot, if there is one. -/
lemma scanDown_spec (stop : ℤ) (hcov : arr.Covers stop hi)
    (hstop : key (arr.cells stop) ≤ key pivot) (m : ℕ) : ∀ j, (j - stop).toNat = m → j ≤ hi →
    stop < j →
    ∃ p, scanDown key arr pivot j = .ok p ∧ p < j ∧ stop ≤ p ∧ key (arr.cells p) ≤ key pivot
      ∧ ∀ k, p < k → k < j → key pivot ≤ key (arr.cells k) := by
  induction m with
  | zero =>
      intro j hm hhi hlt
      omega
  | succ m ih =>
      intro j hm hhi hlt
      rw [scanDown_of_load (hcov.load (show stop ≤ j - 1 by omega) (show j - 1 ≤ hi by omega))]
      split_ifs with hmore
      · have hne : j - 1 ≠ stop := by
          intro heq
          rw [heq] at hmore
          omega
        rcases ih (j - 1) (by omega) (by omega) (by omega) with ⟨p, hrun, hp, hps, hle, habove⟩
        refine ⟨p, hrun, by omega, hps, hle, fun k hk hkj => ?_⟩
        by_cases hkj' : k = j - 1
        · rw [hkj']
          exact le_of_lt hmore
        · exact habove k hk (by omega)
      · exact ⟨j - 1, rfl, by omega, by omega, not_lt.mp hmore, fun k hk hkj => by omega⟩

/-! ## The loop of `partition` -/

/-- The state between two rounds: `lo..i` holds nothing above the pivot, `j..hi` nothing below it,
and the pivot waits at `hi - 1`. -/
structure Split (key : α → ℤ) (pivot : α) (lo hi i j : ℤ) (f : ℤ → α) : Prop where
  lo_le : lo ≤ i
  lt : i < j
  le_hi : j ≤ hi - 1
  below : ∀ k, lo ≤ k → k ≤ i → key (f k) ≤ key pivot
  above : ∀ k, j ≤ k → k ≤ hi → key pivot ≤ key (f k)
  pivot_eq : f (hi - 1) = pivot

/-- After the last round the pivot belongs at `p`. -/
structure Parted (key : α → ℤ) (pivot : α) (lo hi p : ℤ) (f : ℤ → α) : Prop where
  lo_lt : lo < p
  lt_hi : p ≤ hi - 1
  below : ∀ k, lo ≤ k → k < p → key (f k) ≤ key pivot
  above : ∀ k, p ≤ k → k ≤ hi → key pivot ≤ key (f k)
  pivot_eq : f (hi - 1) = pivot

/-- Exchanging the two cells the scans have stopped at restores the state between two rounds. -/
lemma Split.exchange {f : ℤ → α} {p q : ℤ} (h : Split key pivot lo hi i j f) (hip : i < p)
    (hqj : q < j) (hpq : p < q) (hpge : key pivot ≤ key (f p)) (hqle : key (f q) ≤ key pivot)
    (hbelow : ∀ k, lo ≤ k → k < p → key (f k) ≤ key pivot)
    (habove : ∀ k, q < k → k ≤ hi → key pivot ≤ key (f k)) :
    Split key pivot lo hi p q (f ∘ Equiv.swap p q) := by
  have hlo := h.lo_le
  have hhi := h.le_hi
  refine ⟨by omega, hpq, by omega, fun k hk hkp => ?_, fun k hk hkhi => ?_, ?_⟩
  · rw [Function.comp_apply]
    by_cases hkp' : k = p
    · rw [hkp', Equiv.swap_apply_left]
      exact hqle
    · rw [Equiv.swap_apply_of_ne_of_ne hkp' (by omega)]
      exact hbelow k hk (by omega)
  · rw [Function.comp_apply]
    by_cases hkq : k = q
    · rw [hkq, Equiv.swap_apply_right]
      exact hpge
    · rw [Equiv.swap_apply_of_ne_of_ne (by omega) hkq]
      exact habove k (by omega) hkhi
  · rw [Function.comp_apply, Equiv.swap_apply_of_ne_of_ne (by omega) (by omega), h.pivot_eq]

/-- **The loop.**  One round either ends with the split complete or exchanges two cells and comes
closer; `j - i` rounds are enough. -/
lemma partitionLoop_spec (m : ℕ) : ∀ (fuel : ℕ) (arr : Block α) (i j : ℤ), (j - i).toNat ≤ m →
    m ≤ fuel → arr.Covers lo hi → Split key pivot lo hi i j arr.cells →
    ∃ g p, partitionLoop key pivot fuel arr i j = .ok (arr.withCells g, p)
      ∧ Rearranges lo hi arr.cells g ∧ Parted key pivot lo hi p g := by
  induction m with
  | zero =>
      intro fuel arr i j hm hfuel hcov hsplit
      have := hsplit.lt
      omega
  | succ m ih =>
      intro fuel arr i j hm hfuel hcov hsplit
      have ⟨hloi, hij, hjhi, hbelow, habove, hpiv⟩ := hsplit
      cases fuel with
      | zero => omega
      | succ fuel =>
          rcases scanUp_spec j (hcov.mono (le_refl lo) (by omega)) (habove j (le_refl j) (by omega))
            _ i rfl hloi hij with ⟨p, hup, hip, hpj, hpge, hup'⟩
          rcases scanDown_spec i (hcov.mono hloi (le_refl hi)) (hbelow i hloi (le_refl i))
            _ j rfl (by omega) hij with ⟨q, hdown, hqj, hiq, hqle, hdown'⟩
          have hbelow' : ∀ k, lo ≤ k → k < p → key (arr.cells k) ≤ key pivot := by
            intro k hk hkp
            by_cases hki : k ≤ i
            · exact hbelow k hk hki
            · exact hup' k (by omega) hkp
          have habove' : ∀ k, q < k → k ≤ hi → key pivot ≤ key (arr.cells k) := by
            intro k hk hkhi
            by_cases hkj : j ≤ k
            · exact habove k hkj hkhi
            · exact hdown' k hk (by omega)
          rw [partitionLoop]
          simp only [hup, hdown, ok_bind]
          by_cases hpq : p ≥ q
          · refine ⟨arr.cells, p, by simp [hpq], Rearranges.refl _ _ _, ?_⟩
            refine ⟨by omega, by omega, hbelow', fun k hk hkhi => ?_, hpiv⟩
            by_cases hkp : k = p
            · rw [hkp]
              exact hpge
            · exact habove' k (by omega) hkhi
          · have hswap := hcov.swap (show lo ≤ p by omega) (show p ≤ hi by omega)
              (show lo ≤ q by omega) (show q ≤ hi by omega)
            have hsplit' := hsplit.exchange hip hqj (by omega) hpge hqle hbelow' habove'
            rcases ih fuel (arr.withCells (arr.cells ∘ Equiv.swap p q)) p q (by omega) (by omega)
              (hcov.withCells _) hsplit' with ⟨g, r, hrun, hre, hpart⟩
            refine ⟨g, r, by simpa [hpq, hswap] using hrun, ?_, hpart⟩
            exact (rearranges_swap arr.cells (by omega) (by omega) (by omega) (by omega)).trans hre

/-! ## `partition` -/

lemma orderCells_spec (key : α → ℤ) (hcov : arr.Covers lo hi) (hi₁ : lo ≤ i) (hi₂ : i ≤ hi)
    (hj₁ : lo ≤ j) (hj₂ : j ≤ hi) :
    ∃ g, orderCells key arr i j = .ok (arr.withCells g) ∧ Rearranges lo hi arr.cells g
      ∧ key (g i) ≤ key (g j) ∧ (∀ k, k ≠ i → k ≠ j → g k = arr.cells k)
      ∧ ((g i = arr.cells i ∧ g j = arr.cells j)
          ∨ (g i = arr.cells j ∧ g j = arr.cells i ∧ key (arr.cells j) < key (arr.cells i))) := by
  simp only [orderCells, hcov.load hi₁ hi₂, hcov.load hj₁ hj₂, ok_bind]
  split_ifs with hgt
  · refine ⟨_, hcov.swap hi₁ hi₂ hj₁ hj₂, rearranges_swap _ hi₁ hi₂ hj₁ hj₂, ?_, ?_, Or.inr ?_⟩
    · simpa using le_of_lt hgt
    · intro k hki hkj
      rw [Function.comp_apply, Equiv.swap_apply_of_ne_of_ne hki hkj]
    · simpa using hgt
  · exact ⟨arr.cells, rfl, Rearranges.refl _ _ _, not_lt.mp hgt, fun _ _ _ => rfl,
      Or.inl ⟨rfl, rfl⟩⟩

/-- **`median_of_three`** leaves the array ready for the loop. -/
lemma medianOfThree_spec (key : α → ℤ) (hcov : arr.Covers lo hi) (h : 2 ≤ hi - lo) :
    ∃ g, medianOfThree key arr lo hi = .ok (arr.withCells g, hi - 1)
      ∧ Rearranges lo hi arr.cells g ∧ Split key (g (hi - 1)) lo hi lo (hi - 1) g := by
  rcases midpoint_bounds (show lo < hi by omega) with ⟨hmlo, hmhi⟩
  have hmlo' : lo < midpoint lo hi := by
    have hdiv : (hi - lo).tdiv 2 = (hi - lo) / 2 := Int.tdiv_eq_ediv_of_nonneg (by omega)
    unfold midpoint
    omega
  set mid := midpoint lo hi with hmid
  have hlohi : lo ≤ hi := by omega
  -- the smallest of the three ends at `lo`, and the last comparison orders the other two
  rcases orderCells_spec key hcov (le_refl lo) hlohi hmlo (by omega) with
    ⟨g₁, hrun₁, hre₁, hle₁, _, _⟩
  rcases orderCells_spec key (hcov.withCells g₁) (le_refl lo) hlohi hlohi (le_refl hi) with
    ⟨g₂, hrun₂, hre₂, hle₂, hother₂, hor₂⟩
  rcases orderCells_spec key (hcov.withCells g₂) hmlo (show mid ≤ hi by omega) hlohi (le_refl hi)
    with ⟨g₃, hrun₃, hre₃, hle₃, hother₃, hor₃⟩
  simp only [Block.withCells_cells, Block.withCells_withCells] at *
  have hswap := (hcov.withCells g₃).swap hmlo (show mid ≤ hi by omega) (show lo ≤ hi - 1 by omega)
    (show hi - 1 ≤ hi by omega)
  have hmid₂ : g₂ mid = g₁ mid := hother₂ mid (by omega) (by omega)
  have hlo₃ : g₃ lo = g₂ lo := hother₃ lo (by omega) (by omega)
  have hlomid₂ : key (g₂ lo) ≤ key (g₂ mid) := by
    rw [hmid₂]
    rcases hor₂ with ⟨h₁, _⟩ | ⟨h₁, _, h₂⟩ <;> rw [h₁] <;> omega
  have hlomid₃ : key (g₃ lo) ≤ key (g₃ mid) := by
    rw [hlo₃]
    rcases hor₃ with ⟨h₁, _⟩ | ⟨h₁, _⟩ <;> rw [h₁] <;> assumption
  have hpiv : (g₃ ∘ Equiv.swap mid (hi - 1)) (hi - 1) = g₃ mid := by simp
  have hother : ∀ k, k = lo ∨ k = hi → (g₃ ∘ Equiv.swap mid (hi - 1)) k = g₃ k := by
    intro k hk
    rw [Function.comp_apply, Equiv.swap_apply_of_ne_of_ne (by omega) (by omega)]
  refine ⟨g₃ ∘ Equiv.swap mid (hi - 1), ?_, ?_, ?_⟩
  · simp [medianOfThree, ← hmid, hrun₁, hrun₂, hrun₃, hswap]
  · refine ((hre₁.trans hre₂).trans hre₃).trans ?_
    exact rearranges_swap g₃ hmlo (by omega) (by omega) (by omega)
  · rw [hpiv]
    refine ⟨le_refl lo, by omega, le_refl _, fun k hk hk' => ?_, fun k hk hk' => ?_, hpiv⟩
    · rw [show k = lo by omega, hother lo (Or.inl rfl)]
      exact hlomid₃
    · by_cases hkhi : k = hi
      · rw [hkhi, hother hi (Or.inr rfl)]
        exact hle₃
      · rw [show k = hi - 1 by omega, hpiv]

/-- **`partition`** puts a pivot in its place, with nothing larger before it and nothing smaller
after it, and touches only the cells `lo..hi`. -/
theorem partition_spec (key : α → ℤ) (hcov : arr.Covers lo hi) (h : lo < hi) :
    ∃ g p, partition key arr lo hi = .ok (arr.withCells g, p) ∧ lo ≤ p ∧ p ≤ hi
      ∧ Rearranges lo hi arr.cells g
      ∧ (∀ k, lo ≤ k → k ≤ p - 1 → key (g k) ≤ key (g p))
      ∧ ∀ k, p + 1 ≤ k → k ≤ hi → key (g p) ≤ key (g k) := by
  unfold partition
  by_cases hsmall : hi - lo < 2
  · have hlohi : lo ≤ hi := by omega
    rcases orderCells_spec key hcov (le_refl lo) hlohi hlohi (le_refl hi) with
      ⟨g, hrun, hre, hle, _⟩
    refine ⟨g, lo, by simp [hsmall, hrun], le_refl lo, hlohi, hre, ?_, ?_⟩
    · intro k hk hk'
      omega
    · intro k hk hk'
      rw [show k = hi by omega]
      exact hle
  · rcases medianOfThree_spec key hcov (by omega) with ⟨g₁, hrun₁, hre₁, hsplit⟩
    have hload := (hcov.withCells g₁).load (show lo ≤ hi - 1 by omega) (show hi - 1 ≤ hi by omega)
    have hlast := hcov.le_last
    rcases partitionLoop_spec (hi - 1 - lo).toNat ((arr.last - lo).toNat + 1) (arr.withCells g₁) lo
      (hi - 1) (Nat.le_refl _) (by omega) (hcov.withCells g₁) hsplit with
      ⟨g₂, p, hrun₂, hre₂, hpart⟩
    rcases hpart with ⟨hlop, hphi, hbelow, habove, hpiv⟩
    have hswap := (hcov.withCells g₂).swap (show lo ≤ p by omega) (show p ≤ hi by omega)
      (show lo ≤ hi - 1 by omega) (show hi - 1 ≤ hi by omega)
    have hgp : (g₂ ∘ Equiv.swap p (hi - 1)) p = g₁ (hi - 1) := by simp [hpiv]
    refine ⟨g₂ ∘ Equiv.swap p (hi - 1), p, ?_, by omega, by omega, ?_, fun k hk hkp => ?_,
      fun k hk hkhi => ?_⟩
    · simp only [Block.withCells_withCells, Block.withCells_cells] at *
      simp [hsmall, hrun₁, hload, hrun₂, hswap]
    · refine (hre₁.trans hre₂).trans ?_
      exact rearranges_swap g₂ (by omega) (by omega) (by omega) (by omega)
    · rw [hgp, Function.comp_apply, Equiv.swap_apply_of_ne_of_ne (by omega) (by omega)]
      exact hbelow k hk (by omega)
    · rw [hgp, Function.comp_apply]
      by_cases hkhi' : k = hi - 1
      · rw [hkhi', Equiv.swap_apply_right]
        exact habove p (le_refl p) (by omega)
      · rw [Equiv.swap_apply_of_ne_of_ne (by omega) hkhi']
        exact habove k (by omega) hkhi

/-! ## `quick_sort` -/

/-- The recursion: each half is one cell shorter at least, since the pivot is left out. -/
lemma quickSortRec_spec (key : α → ℤ) (fuel : ℕ) :
    ∀ (arr : Block α) (lo hi : ℤ), (hi + 1 - lo).toNat < fuel → arr.Covers lo hi →
    ∃ g, quickSortRec key fuel arr lo hi = .ok (arr.withCells g)
      ∧ Rearranges lo hi arr.cells g ∧ Ascends key lo hi g := by
  induction fuel with
  | zero =>
      intro arr lo hi hfuel _
      omega
  | succ fuel ih =>
      intro arr lo hi hfuel hcov
      rw [quickSortRec]
      by_cases hdone : lo ≥ hi
      · exact ⟨arr.cells, by simp [hdone], Rearranges.refl _ _ _, ascends_of_le hdone⟩
      · rcases partition_spec key hcov (by omega) with
          ⟨g₁, p, hrun₁, hlop, hphi, hre₁, hbelow, habove⟩
        rcases ih (arr.withCells g₁) lo (p - 1) (by omega)
          ((hcov.withCells g₁).mono (le_refl lo) (by omega)) with ⟨g₂, hrun₂, hre₂, hasc₂⟩
        rcases ih (arr.withCells g₂) (p + 1) hi (by omega)
          ((hcov.withCells g₂).mono (by omega) (le_refl hi)) with ⟨g₃, hrun₃, hre₃, hasc₃⟩
        simp only [Block.withCells_cells, Block.withCells_withCells] at hrun₂ hre₂ hrun₃ hre₃
        refine ⟨g₃, by simp [hdone, hrun₁, hrun₂, hrun₃], ?_, ?_⟩
        · have hre₂' := hre₂.mono (le_refl lo) (show p - 1 ≤ hi by omega)
          have hre₃' := hre₃.mono (show lo ≤ p + 1 by omega) (le_refl hi)
          exact (hre₁.trans hre₂').trans hre₃'
        · -- the pivot stays where it is while the two sides are sorted
          have hp₂ : g₂ p = g₁ p := hre₂.outside (Or.inr (by omega))
          have hp₃ : g₃ p = g₁ p := by rw [hre₃.outside (Or.inl (by omega)), hp₂]
          have hleft : ∀ k, lo ≤ k → k ≤ p - 1 → g₃ k = g₂ k := fun k _ _ =>
            hre₃.outside (Or.inl (by omega))
          have hbelow' : ∀ k, lo ≤ k → k ≤ p - 1 → key (g₃ k) ≤ key (g₃ p) := by
            intro k hk hkp
            rw [hleft k hk hkp, hp₃]
            exact hre₂.forall_inside (P := fun x => key x ≤ key (g₁ p)) hbelow k hk hkp
          have hright : ∀ k, p + 1 ≤ k → k ≤ hi → key (g₁ p) ≤ key (g₂ k) := by
            intro k hk hkhi
            rw [hre₂.outside (Or.inr (by omega))]
            exact habove k hk hkhi
          have habove' : ∀ k, p + 1 ≤ k → k ≤ hi → key (g₃ p) ≤ key (g₃ k) := by
            rw [hp₃]
            exact hre₃.forall_inside (P := fun x => key (g₁ p) ≤ key x) hright
          exact ascends_join (hasc₂.congr hleft) hasc₃ hbelow' habove'

theorem quickSort_spec {n : ℤ} (hcov : arr.Covers 0 (n - 1)) :
    ∃ g, quickSort key arr n = .ok (arr.withCells g)
      ∧ Rearranges 0 (n - 1) arr.cells g ∧ Ascends key 0 (n - 1) g := by
  unfold quickSort
  by_cases hn : n < 2
  · exact ⟨arr.cells, by simp [hn], Rearranges.refl _ _ _, ascends_of_le (by omega)⟩
  · rcases quickSortRec_spec key (n.toNat + 1) arr 0 (n - 1) (by omega) hcov with
      ⟨g, hrun, hre, hasc⟩
    exact ⟨g, by simp [hn, hrun], hre, hasc⟩

end

end CExercises.Sorting
