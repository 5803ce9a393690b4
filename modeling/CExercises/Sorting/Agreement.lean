import CExercises.Sorting.Merge
import CExercises.Sorting.Quadratic
import CExercises.Sorting.Quick

/-!
# All five sorts leave the same array

An ascending rearrangement of an array of integers is unique, so it is enough that every function
of the table produces one.  The invariants behind that have nothing in common and are proved in the
modules imported here.
-/

namespace CExercises.Sorting

/-- `g` is `f` with its first `n` cells in ascending order. -/
structure SortsTo (n : ℤ) (f g : ℤ → ℤ) : Prop where
  ascends : Ascends id 0 (n - 1) g
  perm : (seg g 0 (n - 1)).Perm (seg f 0 (n - 1))
  outside : ∀ k, k < 0 ∨ n - 1 < k → g k = f k

variable {n : ℤ} {f g g' : ℤ → ℤ}

lemma sortsTo_of_rearranges (h : Rearranges 0 (n - 1) f g) (hasc : Ascends id 0 (n - 1) g) :
    SortsTo n f g :=
  ⟨hasc, h.perm, fun _ hk => h.outside hk⟩

lemma SortsTo.unique (h : SortsTo n f g) (h' : SortsTo n f g') : g = g' := by
  have hseg : seg g 0 (n - 1) = seg g' 0 (n - 1) :=
    (h.perm.trans h'.perm.symm).eq_of_pairwise (fun x y _ _ hxy hyx => le_antisymm hxy hyx)
      h.ascends.pairwise_seg h'.ascends.pairwise_seg
  funext k
  by_cases hk : 0 ≤ k ∧ k ≤ n - 1
  · exact eq_of_seg_eq hseg hk.1 hk.2
  · rw [h.outside k (by omega), h'.outside k (by omega)]

/-- Every entry of the table returns, with the cells in ascending order. -/
lemma sorts_spec (uninit : ℤ → ℤ) (n : ℤ) (f : ℤ → ℤ) (s : SortEntry) (hs : s ∈ sorts uninit) :
    ∃ g, s.fn (Block.ofCells n f) n = .ok (Block.ofCells n g) ∧ SortsTo n f g := by
  have hcov : (Block.ofCells n f).Covers 0 (n - 1) := ⟨le_refl _, le_refl _⟩
  simp only [sorts, List.mem_cons, List.not_mem_nil, or_false] at hs
  rcases hs with rfl | rfl | rfl | rfl | rfl
  · rcases bubbleSort_spec hcov with ⟨g, hrun, hswaps, hasc⟩
    exact ⟨g, hrun, sortsTo_of_rearranges hswaps.rearranges hasc⟩
  · rcases insertionSort_spec hcov with ⟨g, hrun, hswaps, hasc⟩
    exact ⟨g, hrun, sortsTo_of_rearranges hswaps.rearranges hasc⟩
  · rcases selectionSort_spec hcov with ⟨g, hrun, hre, hasc⟩
    exact ⟨g, hrun, sortsTo_of_rearranges hre hasc⟩
  · rcases mergeSort_spec uninit hcov with ⟨g, hrun, hout, hsame, hasc⟩
    exact ⟨g, hrun, hasc, hsame.perm, hout⟩
  · rcases quickSort_spec hcov with ⟨g, hrun, hre, hasc⟩
    exact ⟨g, hrun, sortsTo_of_rearranges hre hasc⟩

/-- **The five sorts agree**, on every array of every length. -/
theorem sorts_agree (uninit : ℤ → ℤ) (n : ℕ) (f : ℤ → ℤ) :
    ∃ g : ℤ → ℤ, (seg g 0 (n - 1)).Pairwise (· ≤ ·)
      ∧ (seg g 0 (n - 1)).Perm (seg f 0 (n - 1))
      ∧ ∀ s ∈ sorts uninit, s.fn (Block.ofCells n f) n = .ok (Block.ofCells n g) := by
  have hhead : (⟨"bubble_sort", bubbleSort id⟩ : SortEntry) ∈ sorts uninit := by simp [sorts]
  rcases sorts_spec uninit n f _ hhead with ⟨g, _, hg⟩
  refine ⟨g, hg.ascends.pairwise_seg, hg.perm, fun s hs => ?_⟩
  rcases sorts_spec uninit n f s hs with ⟨g', hrun, hg'⟩
  rw [hg.unique hg', hrun]

end CExercises.Sorting
