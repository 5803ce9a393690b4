import CExercises.Sorting.Def

/-!
# Merge sort

`merge` copies the range into the buffer and writes it back in order.  What it writes is exactly
`List.merge` of the two halves — `writeSeg` is the array with a list written over it — so that
order, completeness and stability are facts about lists.  The buffer is shared by all the recursive
calls; nobody relies on what it holds between them.
-/

namespace CExercises.Sorting

section

variable {α : Type} (key : α → ℤ)

/-- `tmp[i] <= tmp[j]`. -/
def keyLe (x y : α) : Bool := key x ≤ key y

variable {key} {arr tmp : Block α} {lo mid hi : ℤ}

/-- Copying fills the buffer's cells from `k` on. -/
lemma copyInto_spec (hcov : arr.Covers lo hi) (m : ℕ) : ∀ (tmp : Block α) (k : ℤ),
    (hi + 1 - k).toNat = m → lo ≤ k → tmp.Covers lo hi →
    ∃ t, copyInto arr hi tmp k = .ok (tmp.withCells t)
      ∧ (∀ l, k ≤ l → l ≤ hi → t l = arr.cells l) ∧ ∀ l, l < k → t l = tmp.cells l := by
  induction m with
  | zero =>
      intro tmp k hm hlo htmp
      refine ⟨tmp.cells, ?_, fun l hl hl' => by omega, fun l _ => rfl⟩
      rw [copyInto, if_neg (by omega)]
      rfl
  | succ m ih =>
      intro tmp k hm hlo htmp
      rcases ih (tmp.withCells (Function.update tmp.cells k (arr.cells k))) (k + 1) (by omega)
        (by omega) (htmp.withCells _) with ⟨t, hrun, hcopied, hbefore⟩
      refine ⟨t, ?_, fun l hl hl' => ?_, fun l hl => ?_⟩
      · rw [copyInto, if_pos (by omega)]
        simp only [hcov.load hlo (show k ≤ hi by omega), htmp.store hlo (show k ≤ hi by omega),
          ok_bind, hrun, Block.withCells_withCells]
      · by_cases hlk : l = k
        · rw [hlk, hbefore k (by omega), Block.withCells_cells, Function.update_self]
        · exact hcopied l (by omega) hl'
      · rw [hbefore l (by omega), Block.withCells_cells, Function.update_of_ne (by omega)]

/-- Draining writes what is left of one half. -/
lemma drain_spec (last : ℤ) (htmp : tmp.Covers lo last) (m : ℕ) : ∀ (arr : Block α) (i k : ℤ),
    (last + 1 - i).toNat = m → lo ≤ i → lo ≤ k → k + (last - i) ≤ hi → arr.Covers lo hi →
    i ≤ last + 1 →
    drain last tmp arr i k
      = .ok (arr.withCells (writeSeg arr.cells k (seg tmp.cells i last)), k + (last + 1 - i)) := by
  induction m with
  | zero =>
      intro arr i k hm hi hk hroom hcov hle
      rw [drain, if_neg (by omega), seg_nil (by omega), show k + (last + 1 - i) = k by omega]
      rfl
  | succ m ih =>
      intro arr i k hm hi hk hroom hcov hle
      have ih' := ih (arr.withCells (Function.update arr.cells k (tmp.cells i))) (i + 1) (k + 1)
        (by omega) (by omega) (by omega) (by omega) (hcov.withCells _) (by omega)
      rw [drain, if_pos (by omega), seg_cons (by omega)]
      simp only [htmp.load hi (show i ≤ last by omega), hcov.store hk (show k ≤ _ by omega),
        ok_bind, ih', Block.withCells_withCells, Block.withCells_cells, writeSeg]
      rw [show k + 1 + (last + 1 - (i + 1)) = k + (last + 1 - i) by omega]

/-- Between the cells `i`, `j` and the cells `i'`, `j'` of the two halves the list `xs` is written,
and one half is used up: `xs` and the merge of what is left make up the merge of the whole. -/
structure Merged (key : α → ℤ) (tmp : Block α) (mid hi i j : ℤ) (xs : List α) (i' j' : ℤ) :
    Prop where
  left : i ≤ i' ∧ i' ≤ mid + 1
  right : j ≤ j' ∧ j' ≤ hi + 1
  done : mid < i' ∨ hi < j'
  length : (i' - i) + (j' - j) = xs.length
  merge_eq : xs ++ (seg tmp.cells i' mid).merge (seg tmp.cells j' hi) (keyLe key)
    = (seg tmp.cells i mid).merge (seg tmp.cells j hi) (keyLe key)

/-- The smaller front comes from the left half. -/
lemma Merged.cons_left {i j i' j' : ℤ} {xs : List α} (hi₁ : i ≤ mid) (hj : j ≤ hi)
    (hle : key (tmp.cells i) ≤ key (tmp.cells j))
    (h : Merged key tmp mid hi (i + 1) j xs i' j') :
    Merged key tmp mid hi i j (tmp.cells i :: xs) i' j' := by
  obtain ⟨⟨hi₂, hi₃⟩, hright, hdone, hlen, hmerge⟩ := h
  refine ⟨⟨by omega, hi₃⟩, hright, hdone, ?_, ?_⟩
  · rw [List.length_cons]
    push_cast
    omega
  · have hkey : keyLe key (tmp.cells i) (tmp.cells j) = true := decide_eq_true hle
    rw [seg_cons hi₁, seg_cons hj, List.cons_merge_cons, if_pos hkey, List.cons_append, hmerge,
      ← seg_cons hj]

/-- It comes from the right half. -/
lemma Merged.cons_right {i j i' j' : ℤ} {xs : List α} (hi₁ : i ≤ mid) (hj : j ≤ hi)
    (hlt : ¬ key (tmp.cells i) ≤ key (tmp.cells j))
    (h : Merged key tmp mid hi i (j + 1) xs i' j') :
    Merged key tmp mid hi i j (tmp.cells j :: xs) i' j' := by
  obtain ⟨hleft, ⟨hj₂, hj₃⟩, hdone, hlen, hmerge⟩ := h
  refine ⟨hleft, ⟨by omega, hj₃⟩, hdone, ?_, ?_⟩
  · rw [List.length_cons]
    push_cast
    omega
  · have hkey : ¬ keyLe key (tmp.cells i) (tmp.cells j) = true := fun h => hlt (of_decide_eq_true h)
    rw [seg_cons hi₁, seg_cons hj, List.cons_merge_cons, if_neg hkey, List.cons_append, hmerge,
      ← seg_cons hi₁]

/-- Writing one cell and then a list is writing the longer list. -/
lemma ok_writeSeg_cons (f : ℤ → α) (k : ℤ) (x : α) (xs : List α) {i' j' : ℤ} :
    (Except.ok (arr.withCells (writeSeg (Function.update f k x) (k + 1) xs), i', j',
        k + 1 + (xs.length : ℤ)) : Except Stop (Block α × ℤ × ℤ × ℤ))
      = .ok (arr.withCells (writeSeg f k (x :: xs)), i', j', k + ((x :: xs).length : ℤ)) := by
  rw [List.length_cons, show k + ((xs.length + 1 : ℕ) : ℤ) = k + 1 + xs.length by push_cast; omega]
  rfl

/-- **The merging loop** ends when one half is used up, with its part of the merge written. -/
lemma mergeBoth_spec (key : α → ℤ) (htmp : tmp.Covers lo hi) (hmid : mid ≤ hi) (m : ℕ) :
    ∀ (arr : Block α) (i j k : ℤ), (mid + 1 - i).toNat + (hi + 1 - j).toNat = m →
    lo ≤ i → i ≤ mid + 1 → lo ≤ j → j ≤ hi + 1 → lo ≤ k →
    k + (mid + 1 - i) + (hi + 1 - j) = hi + 1 → arr.Covers lo hi →
    ∃ xs i' j', mergeBoth key mid hi tmp arr i j k
        = .ok (arr.withCells (writeSeg arr.cells k xs), i', j', k + xs.length)
      ∧ Merged key tmp mid hi i j xs i' j' := by
  induction m using Nat.strongRecOn with
  | ind m ih =>
      intro arr i j k hm hi₁ hi₂ hj₁ hj₂ hk hroom hcov
      by_cases hboth : i ≤ mid ∧ j ≤ hi
      · obtain ⟨hi', hj'⟩ := hboth
        rw [mergeBoth, if_pos ⟨hi', hj'⟩]
        simp only [htmp.load hi₁ (show i ≤ hi by omega), htmp.load hj₁ hj',
          hcov.store hk (show k ≤ hi by omega), ok_bind]
        split_ifs with hle
        · obtain ⟨xs, i', j', hrun, hmerged⟩ := ih _ (by omega)
            (arr.withCells (Function.update arr.cells k (tmp.cells i))) (i + 1) j (k + 1) rfl
            (by omega) (by omega) hj₁ hj₂ (by omega) (by omega) (hcov.withCells _)
          refine ⟨tmp.cells i :: xs, i', j', ?_, hmerged.cons_left hi' hj' hle⟩
          rw [hrun, Block.withCells_cells, Block.withCells_withCells, ok_writeSeg_cons]
        · obtain ⟨xs, i', j', hrun, hmerged⟩ := ih _ (by omega)
            (arr.withCells (Function.update arr.cells k (tmp.cells j))) i (j + 1) (k + 1) rfl
            hi₁ hi₂ (by omega) (by omega) (by omega) (by omega) (hcov.withCells _)
          refine ⟨tmp.cells j :: xs, i', j', ?_, hmerged.cons_right hi' hj' hle⟩
          rw [hrun, Block.withCells_cells, Block.withCells_withCells, ok_writeSeg_cons]
      · refine ⟨[], i, j, ?_, ⟨le_refl i, hi₂⟩, ⟨le_refl j, hj₂⟩, by omega, by simp, rfl⟩
        rw [mergeBoth, if_neg hboth]
        simp [writeSeg]

/-- When one list is empty there is nothing to compare. -/
lemma merge_eq_append {xs ys : List α} (h : xs = [] ∨ ys = []) :
    xs.merge ys (keyLe key) = xs ++ ys := by
  rcases h with rfl | rfl
  · simp
  · simp

/-- Merging ascending lists gives an ascending list. -/
lemma pairwise_merge {xs ys : List α} (hxs : xs.Pairwise fun x y => key x ≤ key y)
    (hys : ys.Pairwise fun x y => key x ≤ key y) :
    (xs.merge ys (keyLe key)).Pairwise fun x y => key x ≤ key y := by
  have hle : ∀ x y : α, keyLe key x y = true ↔ key x ≤ key y := fun x y => by simp [keyLe]
  have htrans : ∀ x y z : α, keyLe key x y = true → keyLe key y z = true → keyLe key x z = true :=
    fun x y z hxy hyz => (hle x z).mpr (le_trans ((hle x y).mp hxy) ((hle y z).mp hyz))
  have htotal : ∀ x y : α, (keyLe key x y || keyLe key y x) = true := by
    intro x y
    rw [Bool.or_eq_true, hle, hle]
    exact le_total _ _
  have hmerge := List.pairwise_merge htrans htotal xs ys (hxs.imp fun h => (hle _ _).mpr h)
    (hys.imp fun h => (hle _ _).mpr h)
  exact hmerge.imp fun h => (hle _ _).mp h

/-- **`merge`** replaces the range by the merge of its halves. -/
lemma merge_spec (key : α → ℤ) (hcov : arr.Covers lo hi) (htmp : tmp.Covers lo hi) (h₁ : lo ≤ mid)
    (h₂ : mid < hi) :
    ∃ g t, merge key arr lo mid hi tmp = .ok (arr.withCells g, tmp.withCells t)
      ∧ (∀ k, k < lo ∨ hi < k → g k = arr.cells k)
      ∧ seg g lo hi
          = (seg arr.cells lo mid).merge (seg arr.cells (mid + 1) hi) (keyLe key) := by
  rcases copyInto_spec hcov _ tmp lo rfl (le_refl lo) htmp with ⟨t, hcopy, hcopied, _⟩
  have htmp' := htmp.withCells t
  rcases mergeBoth_spec key htmp' (le_of_lt h₂) _ arr lo (mid + 1) lo rfl (le_refl lo) (by omega)
    (by omega) (by omega) (le_refl lo) (by omega) hcov with
    ⟨xs, i, j, hboth, ⟨hi₁, hi₂⟩, ⟨hj₁, hj₂⟩, hdone, hlen, hmerge⟩
  have hlen₁ : ((seg t i mid).length : ℤ) = mid + 1 - i := by rw [length_seg]; omega
  have hlen₂ : ((seg t j hi).length : ℤ) = hi + 1 - j := by rw [length_seg]; omega
  -- one half is used up, so the two drains write the rest of the merge
  have hrest : (seg t i mid).merge (seg t j hi) (keyLe key) = seg t i mid ++ seg t j hi := by
    rcases hdone with hdone | hdone
    · exact merge_eq_append (Or.inl (seg_nil hdone))
    · exact merge_eq_append (Or.inr (seg_nil hdone))
  have hdrain₁ := drain_spec mid (htmp'.mono (le_refl lo) (le_of_lt h₂)) _
    (arr.withCells (writeSeg arr.cells lo xs)) i (lo + xs.length) rfl hi₁ (by omega)
    (show lo + xs.length + (mid - i) ≤ hi by omega) (hcov.withCells _) hi₂
  have hdrain₂ := drain_spec hi htmp' _
    (arr.withCells (writeSeg arr.cells lo (xs ++ seg t i mid))) j
    (lo + (xs ++ seg t i mid).length) rfl (by omega) (by omega)
    (show lo + (xs ++ seg t i mid).length + (hi - j) ≤ hi by
      rw [List.length_append]; push_cast; omega) (hcov.withCells _) hj₂
  simp only [Block.withCells_cells, Block.withCells_withCells, writeSeg_append] at hdrain₁ hdrain₂
  rw [show lo + (xs.length : ℤ) + (mid + 1 - i) = lo + (xs ++ seg t i mid).length by
    rw [List.length_append]; push_cast; omega] at hdrain₁
  refine ⟨writeSeg arr.cells lo (xs ++ seg t i mid ++ seg t j hi), t, ?_, fun k hk => ?_, ?_⟩
  · simp only [merge, hcopy, hboth, hdrain₁, hdrain₂, ok_bind, pure_eq_ok]
  · refine writeSeg_outside _ _ _ _ ?_
    rw [List.length_append, List.length_append]
    push_cast
    omega
  · have hseg := seg_writeSeg arr.cells lo (xs ++ seg t i mid ++ seg t j hi)
    rw [show lo + ((xs ++ seg t i mid ++ seg t j hi).length : ℤ) - 1 = hi by
      rw [List.length_append, List.length_append]; push_cast; omega] at hseg
    rw [Block.withCells_cells, hrest, ← List.append_assoc] at hmerge
    rw [hseg, hmerge, seg_congr fun k hk hk' => hcopied k hk (by omega),
      seg_congr fun k hk hk' => hcopied k (by omega) hk']

/-- **The recursion** sorts the range by key, keeps equal keys in order and touches nothing else. -/
lemma mergeSortRec_spec (key : α → ℤ) (m : ℕ) : ∀ (arr tmp : Block α) (lo hi : ℤ),
    (hi - lo).toNat = m → arr.Covers lo hi → tmp.Covers lo hi →
    ∃ g t, mergeSortRec key arr lo hi tmp = .ok (arr.withCells g, tmp.withCells t)
      ∧ (∀ k, k < lo ∨ hi < k → g k = arr.cells k)
      ∧ SameByKey key (seg g lo hi) (seg arr.cells lo hi) ∧ Ascends key lo hi g := by
  induction m using Nat.strongRecOn with
  | ind m ih =>
      intro arr tmp lo hi hm hcov htmp
      by_cases hdone : lo ≥ hi
      · refine ⟨arr.cells, tmp.cells, ?_, fun _ _ => rfl, SameByKey.refl _ _, ascends_of_le hdone⟩
        rw [mergeSortRec, if_pos hdone]
        rfl
      · rcases midpoint_bounds (not_le.mp hdone) with ⟨hmlo, hmhi⟩
        set mid := midpoint lo hi with hmid
        rcases ih (mid - lo).toNat (by omega) arr tmp lo mid rfl
          (hcov.mono (le_refl lo) (by omega)) (htmp.mono (le_refl lo) (by omega)) with
          ⟨g₁, t₁, hrun₁, hout₁, hsame₁, hasc₁⟩
        rcases ih (hi - (mid + 1)).toNat (by omega) (arr.withCells g₁) (tmp.withCells t₁) (mid + 1)
          hi rfl ((hcov.withCells g₁).mono (by omega) (le_refl hi))
          ((htmp.withCells t₁).mono (by omega) (le_refl hi)) with
          ⟨g₂, t₂, hrun₂, hout₂, hsame₂, hasc₂⟩
        rcases merge_spec key (hcov.withCells g₂) (htmp.withCells t₂) hmlo hmhi with
          ⟨g₃, t₃, hrun₃, hout₃, hseg₃⟩
        simp only [Block.withCells_cells, Block.withCells_withCells] at *
        have hleft : seg g₂ lo mid = seg g₁ lo mid :=
          seg_congr fun k _ hk => hout₂ k (Or.inl (by omega))
        have hright : seg g₁ (mid + 1) hi = seg arr.cells (mid + 1) hi :=
          seg_congr fun k hk _ => hout₁ k (Or.inr (by omega))
        rw [hleft] at hseg₃
        have hpw₁ := hasc₁.pairwise_seg
        have hpw₂ := hasc₂.pairwise_seg
        refine ⟨g₃, t₃, ?_, fun k hk => ?_, ?_, ascends_of_pairwise_seg ?_⟩
        · rw [mergeSortRec, if_neg hdone]
          simp [← hmid, hrun₁, hrun₂, hrun₃]
        · rw [hout₃ k hk, hout₂ k (by omega), hout₁ k (by omega)]
        · rw [hseg₃, seg_append (f := arr.cells) (show lo ≤ mid + 1 by omega)
            (show mid ≤ hi by omega)]
          rw [hright] at hsame₂
          exact (sameByKey_merge _ _ hpw₁).trans (hsame₁.append hsame₂)
        · rw [hseg₃]
          exact pairwise_merge hpw₁ hpw₂

theorem mergeSort_spec {n : ℤ} (uninit : ℤ → α) (hcov : arr.Covers 0 (n - 1)) :
    ∃ g, mergeSort key uninit arr n = .ok (arr.withCells g)
      ∧ (∀ k, k < 0 ∨ n - 1 < k → g k = arr.cells k)
      ∧ SameByKey key (seg g 0 (n - 1)) (seg arr.cells 0 (n - 1)) ∧ Ascends key 0 (n - 1) g := by
  have htmp : (Block.ofCells n uninit).Covers 0 (n - 1) := ⟨le_refl _, le_refl _⟩
  rcases mergeSortRec_spec key _ arr (Block.ofCells n uninit) 0 (n - 1) rfl hcov htmp with
    ⟨g, t, hrun, hout, hsame, hasc⟩
  exact ⟨g, by simp [mergeSort, hrun], hout, hsame, hasc⟩

end

end CExercises.Sorting
