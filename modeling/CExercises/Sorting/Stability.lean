import CExercises.Sorting.Merge
import CExercises.Sorting.Quadratic

/-!
# The three stable sorts

The table at the top of `sorting.c` calls bubble, insertion and merge sort stable.  On integers this
cannot be observed, so the theorem is about records with a key and a tag, of which the code
compares the keys and moves the whole.

Bubble and insertion sort exchange neighbours only when the left key is strictly larger; merge sort
takes from the left half when the keys are equal.  Either way the records with a given key come out
in the order in which they went in, which is what `SameByKey` says.
-/

namespace CExercises.Sorting

/-- **Stability**, for every array of records of every length.  `uninit` is what the buffer of
`merge_sort` happens to hold. -/
theorem stable_sorts_keep_order {τ : Type} (uninit : ℤ → ℤ × τ) (n : ℕ) (f : ℤ → ℤ × τ) :
    ∀ sort ∈ [bubbleSort Prod.fst, insertionSort Prod.fst, mergeSort Prod.fst uninit],
      ∃ g : ℤ → ℤ × τ, sort (Block.ofCells n f) n = .ok (Block.ofCells n g)
        ∧ (seg g 0 (n - 1)).Pairwise (fun x y => x.1 ≤ y.1)
        ∧ SameByKey Prod.fst (seg g 0 (n - 1)) (seg f 0 (n - 1)) := by
  have hcov : (Block.ofCells n f).Covers 0 (n - 1) := ⟨le_refl _, le_refl _⟩
  intro sort hsort
  simp only [List.mem_cons, List.not_mem_nil, or_false] at hsort
  rcases hsort with rfl | rfl | rfl
  · rcases @bubbleSort_spec _ Prod.fst n _ hcov with ⟨g, hrun, hswaps, hasc⟩
    exact ⟨g, hrun, hasc.pairwise_seg, hswaps.sameByKey⟩
  · rcases @insertionSort_spec _ Prod.fst n _ hcov with ⟨g, hrun, hswaps, hasc⟩
    exact ⟨g, hrun, hasc.pairwise_seg, hswaps.sameByKey⟩
  · rcases @mergeSort_spec _ Prod.fst _ n uninit hcov with ⟨g, hrun, _, hsame, hasc⟩
    exact ⟨g, hrun, hasc.pairwise_seg, hsame⟩

/-- Two records with the same key stay as they are. -/
theorem stable_sorts_keep_order_tie :
    ∃ g : ℤ → ℤ × Bool,
      mergeSort Prod.fst (fun _ => (0, false)) (Block.ofCells 2 fun i => (1, i = 0)) 2
          = .ok (Block.ofCells 2 g)
        ∧ (seg g 0 (2 - 1)).Pairwise (fun x y => x.1 ≤ y.1)
        ∧ SameByKey Prod.fst (seg g 0 (2 - 1)) (seg (fun i : ℤ => (1, decide (i = 0))) 0 (2 - 1)) :=
  stable_sorts_keep_order (fun _ => (0, false)) 2 _ _ (by simp)

end CExercises.Sorting
