import CExercises.Sorting.Quick

/-!
# `partition` stays in its segment

`quick_sort_rec` hands `partition` a segment `lo..hi` of a longer array, and its two scans carry no
bounds check.  That no access leaves the segment is said with the segment itself as the block:
there, any other access stops the program.  A run that returns on the segment is the same run on
every longer array with these cells, which is shown function by function below; so what
`partition_spec` says of the segment it says of the array.
-/

namespace CExercises.Sorting

section

variable {α : Type} {key : α → ℤ} {arr arr' b : Block α} {pivot : α} {lo hi i j p : ℤ}

/-! ## From the segment to the array -/

/-- A scan that returns has read the cell next to where it began. -/
lemma load_of_scanUp (h : scanUp key arr pivot i = .ok p) : ∃ x, arr.load (i + 1) = .ok x := by
  rw [scanUp] at h
  split at h
  · cases h
  · next x hx => exact ⟨x, hx⟩

lemma load_of_scanDown (h : scanDown key arr pivot j = .ok p) : ∃ x, arr.load (j - 1) = .ok x := by
  rw [scanDown] at h
  split at h
  · cases h
  · next x hx => exact ⟨x, hx⟩

lemma scanUp_widen (hcov : b.Covers arr.first arr.last) (m : ℕ) : ∀ i,
    (arr.last - i).toNat = m → scanUp key arr pivot i = .ok p →
    scanUp key (b.withCells arr.cells) pivot i = .ok p := by
  induction m using Nat.strongRecOn with
  | ind m ih =>
      intro i hm hrun
      obtain ⟨x, hx⟩ := load_of_scanUp hrun
      obtain ⟨_, hlast⟩ := Block.load_bounds hx
      rw [scanUp_of_load hx] at hrun
      rw [scanUp_of_load (hcov.load_widen hx)]
      split_ifs at hrun ⊢ with hless
      · exact ih _ (by omega) (i + 1) rfl hrun
      · exact hrun

lemma scanDown_widen (hcov : b.Covers arr.first arr.last) (m : ℕ) : ∀ j,
    (j - arr.first).toNat = m → scanDown key arr pivot j = .ok p →
    scanDown key (b.withCells arr.cells) pivot j = .ok p := by
  induction m using Nat.strongRecOn with
  | ind m ih =>
      intro j hm hrun
      obtain ⟨x, hx⟩ := load_of_scanDown hrun
      obtain ⟨hfirst, _⟩ := Block.load_bounds hx
      rw [scanDown_of_load hx] at hrun
      rw [scanDown_of_load (hcov.load_widen hx)]
      split_ifs at hrun ⊢ with hmore
      · exact ih _ (by omega) (j - 1) rfl hrun
      · exact hrun

/-- The longer array may also have a larger step budget. -/
lemma partitionLoop_widen (fuel : ℕ) : ∀ (fuel' : ℕ) (arr : Block α) (i j : ℤ), fuel ≤ fuel' →
    b.Covers arr.first arr.last → partitionLoop key pivot fuel arr i j = .ok (arr', p) →
    partitionLoop key pivot fuel' (b.withCells arr.cells) i j = .ok (b.withCells arr'.cells, p)
      ∧ b.Covers arr'.first arr'.last := by
  induction fuel with
  | zero =>
      intro fuel' arr i j _ _ hrun
      cases hrun
  | succ fuel ih =>
      intro fuel' arr i j hfuel hcov hrun
      cases fuel' with
      | zero => omega
      | succ fuel' =>
          simp only [partitionLoop, bind_eq_ok] at hrun
          rcases hrun with ⟨i', hup, j', hdown, hrest⟩
          have hup' := scanUp_widen hcov _ i rfl hup
          have hdown' := scanDown_widen hcov _ j rfl hdown
          simp only [partitionLoop, hup', hdown', ok_bind]
          split_ifs at hrest ⊢ with hcross
          · cases hrest
            exact ⟨rfl, hcov⟩
          · rcases bind_eq_ok.mp hrest with ⟨arr₁, hswap, hrest'⟩
            obtain ⟨hswap', hcov'⟩ := hcov.swap_widen hswap
            have ih' := ih fuel' arr₁ i' j' (by omega) hcov' hrest'
            simp only [hswap', ok_bind]
            exact ih'

lemma orderCells_widen (hcov : b.Covers arr.first arr.last)
    (hrun : orderCells key arr i j = .ok arr') :
    orderCells key (b.withCells arr.cells) i j = .ok (b.withCells arr'.cells)
      ∧ b.Covers arr'.first arr'.last := by
  simp only [orderCells, bind_eq_ok] at hrun
  rcases hrun with ⟨x, hx, y, hy, hrest⟩
  simp only [orderCells, hcov.load_widen hx, hcov.load_widen hy, ok_bind]
  split_ifs at hrest ⊢ with hgt
  · exact hcov.swap_widen hrest
  · cases hrest
    exact ⟨rfl, hcov⟩

lemma medianOfThree_widen (hcov : b.Covers arr.first arr.last)
    (hrun : medianOfThree key arr lo hi = .ok (arr', p)) :
    medianOfThree key (b.withCells arr.cells) lo hi = .ok (b.withCells arr'.cells, p)
      ∧ b.Covers arr'.first arr'.last := by
  simp only [medianOfThree, bind_eq_ok] at hrun
  rcases hrun with ⟨arr₁, hrun₁, arr₂, hrun₂, arr₃, hrun₃, arr₄, hswap, hret⟩
  cases hret
  obtain ⟨hrun₁', hcov₁⟩ := orderCells_widen hcov hrun₁
  obtain ⟨hrun₂', hcov₂⟩ := orderCells_widen hcov₁ hrun₂
  obtain ⟨hrun₃', hcov₃⟩ := orderCells_widen hcov₂ hrun₃
  obtain ⟨hswap', hcov₄⟩ := hcov₃.swap_widen hswap
  refine ⟨?_, hcov₄⟩
  simp only [medianOfThree, hrun₁', hrun₂', hrun₃', hswap', ok_bind]
  rfl

/-- **What `partition` does to a segment it does to every array around it.** -/
theorem partition_widen (hcov : b.Covers arr.first arr.last)
    (hrun : partition key arr lo hi = .ok (arr', p)) :
    partition key (b.withCells arr.cells) lo hi = .ok (b.withCells arr'.cells, p) := by
  unfold partition at hrun ⊢
  split_ifs at hrun ⊢ with hsmall
  · rcases bind_eq_ok.mp hrun with ⟨arr₁, horder, hret⟩
    cases hret
    simp only [(orderCells_widen hcov horder).1, ok_bind]
    rfl
  · simp only [bind_eq_ok] at hrun
    rcases hrun with ⟨⟨arr₁, pivotIdx⟩, hmedian, pivot, hload, ⟨arr₂, i⟩, hloop, arr₃, hswap, hret⟩
    cases hret
    obtain ⟨hmedian', hcov₁⟩ := medianOfThree_widen hcov hmedian
    have hload' := hcov₁.load_widen hload
    have hlast := hcov₁.le_last
    have hfuel : (arr₁.last - lo).toNat + 1 ≤ (b.last - lo).toNat + 1 := by omega
    obtain ⟨hloop', hcov₂⟩ := partitionLoop_widen _ _ arr₁ lo (hi - 1) hfuel hcov₁ hloop
    obtain ⟨hswap', _⟩ := hcov₂.swap_widen hswap
    simp only [hmedian', hload', ok_bind, Block.withCells_last, hloop', hswap']
    rfl

/-- **The segment**, for every array of `n` cells and every `0 ≤ lo < hi < n`.  The same `g` and `p`
come out of the whole array and of the block that is `lo..hi` alone, where an access to any other
index would have stopped the run. -/
theorem partition_keeps_to_segment (key : α → ℤ) (n lo hi : ℤ) (cells : ℤ → α) (hlo : 0 ≤ lo)
    (hlt : lo < hi) (hhi : hi < n) :
    ∃ g p, partition key (Block.ofCells n cells) lo hi = .ok (Block.ofCells n g, p)
      ∧ partition key ⟨lo, hi, cells⟩ lo hi = .ok (⟨lo, hi, g⟩, p)
      ∧ lo ≤ p ∧ p ≤ hi
      ∧ (∀ k, lo ≤ k → k ≤ p - 1 → key (g k) ≤ key (g p))
      ∧ (∀ k, p + 1 ≤ k → k ≤ hi → key (g p) ≤ key (g k))
      ∧ (seg g lo hi).Perm (seg cells lo hi)
      ∧ ∀ k, k < lo ∨ hi < k → g k = cells k := by
  have hcov : (⟨lo, hi, cells⟩ : Block α).Covers lo hi := ⟨le_refl lo, le_refl hi⟩
  rcases partition_spec key hcov hlt with ⟨g, p, hrun, hlop, hphi, hre, hbelow, habove⟩
  have hwide : (Block.ofCells n cells).Covers lo hi := ⟨hlo, show hi ≤ n - 1 by omega⟩
  have hrun' := partition_widen (b := Block.ofCells n cells) hwide hrun
  exact ⟨g, p, hrun', hrun, hlop, hphi, hbelow, habove, hre.perm, fun k hk => hre.outside hk⟩

/-- Three equal elements at the front of a longer array: `mid` is `hi - 1` and every scan stops at
once. -/
theorem partition_keeps_to_segment_equal :
    ∃ g p, partition id (Block.ofCells 5 fun _ => 7) 0 2 = .ok (Block.ofCells 5 g, p)
      ∧ partition id ⟨0, 2, fun _ => 7⟩ 0 2 = .ok (⟨0, 2, g⟩, p)
      ∧ 0 ≤ p ∧ p ≤ 2
      ∧ (∀ k, 0 ≤ k → k ≤ p - 1 → id (g k) ≤ id (g p))
      ∧ (∀ k, p + 1 ≤ k → k ≤ 2 → id (g p) ≤ id (g k))
      ∧ (seg g 0 2).Perm (seg (fun _ => 7) 0 2)
      ∧ ∀ k, k < 0 ∨ 2 < k → g k = 7 :=
  partition_keeps_to_segment id 5 0 2 (fun _ => 7) (by decide) (by decide) (by decide)

end

end CExercises.Sorting
