import CExercises.Sorting.Def

/-!
# The three quadratic sorts

Bubble and insertion sort move cells only by exchanging neighbours that are strictly out of order;
that is what `AdjSwaps` records, and it is more than being a permutation.  For insertion sort the
exchanges are not visible in the code, which shifts cells through a hole.  They become visible when
the hole is filled with the element in hand: one shift of the hole is one exchange in the filled
array.

Selection sort exchanges cells at a distance, so only `Rearranges` survives.
-/

namespace CExercises.Sorting

section

variable {α : Type} {key : α → ℤ} {n : ℤ} {arr : Block α}

/-! ## Bubble sort -/

/-- The cell at `j` is the largest of the cells `0..j`. -/
def LargestAt (key : α → ℤ) (j : ℤ) (f : ℤ → α) : Prop :=
  ∀ k, 0 ≤ k → k ≤ j → key (f k) ≤ key (f j)

/-- Exchanging it with a smaller neighbour takes it one place up. -/
lemma LargestAt.swap {j : ℤ} {f : ℤ → α} (h : LargestAt key j f)
    (hlt : key (f (j + 1)) < key (f j)) : LargestAt key (j + 1) (f ∘ Equiv.swap j (j + 1)) := by
  intro k hk0 hk
  simp only [Function.comp_apply, Equiv.swap_apply_right]
  rw [Equiv.swap_apply_def]
  split_ifs with h1 h2
  · exact le_of_lt hlt
  · exact le_refl _
  · exact h k hk0 (by omega)

lemma LargestAt.next {j : ℤ} {f : ℤ → α} (h : LargestAt key j f)
    (hle : key (f j) ≤ key (f (j + 1))) : LargestAt key (j + 1) f := by
  intro k hk0 hk
  by_cases hkj : k = j + 1
  · rw [hkj]
  · exact le_trans (h k hk0 (by omega)) hle

/-- **One pass.**  A pass that starts with the largest of the cells `0..j` at `j` ends with the
largest of `0..bound` at `bound`; and a pass that exchanges nothing has checked every pair of
neighbours on its way. -/
lemma bubblePass_spec (bound : ℤ) (m : ℕ) : ∀ (arr : Block α) (j : ℤ) (swapped : Bool),
    (bound - j).toNat = m → 0 ≤ j → j ≤ bound → arr.Covers 0 bound →
    LargestAt key j arr.cells →
    ∃ g b, bubblePass key bound arr j swapped = .ok (arr.withCells g, b)
      ∧ AdjSwaps key 0 bound arr.cells g ∧ LargestAt key bound g
      ∧ (b = false → swapped = false ∧ g = arr.cells
          ∧ ∀ k, j ≤ k → k < bound → key (g k) ≤ key (g (k + 1))) := by
  induction m with
  | zero =>
      intro arr j swapped hm hj0 hj hcov hmax
      have hjb : j = bound := by omega
      subst hjb
      refine ⟨arr.cells, swapped, ?_, Relation.ReflTransGen.refl, hmax, ?_⟩
      · rw [bubblePass, if_neg (by omega)]
        rfl
      · intro hb
        exact ⟨hb, rfl, fun k hk hlt => by omega⟩
  | succ m ih =>
      intro arr j swapped hm hj0 hj hcov hmax
      rw [bubblePass, if_pos (by omega)]
      simp only [hcov.load hj0 hj,
        hcov.load (show 0 ≤ j + 1 by omega) (show j + 1 ≤ bound by omega),
        hcov.swap hj0 hj (show 0 ≤ j + 1 by omega) (show j + 1 ≤ bound by omega), ok_bind]
      split_ifs with hgt
      · have hcov' : (arr.withCells (arr.cells ∘ Equiv.swap j (j + 1))).Covers 0 bound :=
          hcov.withCells _
        rcases ih _ (j + 1) true (by omega) (by omega) (by omega) hcov' (hmax.swap hgt) with
          ⟨g, b, hrun, hswaps, hlast, hflag⟩
        refine ⟨g, b, hrun, ?_, hlast, fun hb => ?_⟩
        · exact Relation.ReflTransGen.head ⟨j, hj0, by omega, hgt, rfl⟩ hswaps
        · exact absurd (hflag hb).1 (by simp)
      · have hle : key (arr.cells j) ≤ key (arr.cells (j + 1)) := not_lt.mp hgt
        rcases ih arr (j + 1) swapped (by omega) (by omega) (by omega) hcov (hmax.next hle) with
          ⟨g, b, hrun, hswaps, hlast, hflag⟩
        refine ⟨g, b, hrun, hswaps, hlast, fun hb => ?_⟩
        rcases hflag hb with ⟨hsw, hg, hpairs⟩
        refine ⟨hsw, hg, fun k hk hlt => ?_⟩
        by_cases hkj : k = j
        · rw [hkj, hg]
          exact hle
        · exact hpairs k (by omega) hlt

/-- The cells above `b` are settled: each is at least every cell before it. -/
def SettledAbove (key : α → ℤ) (b n : ℤ) (f : ℤ → α) : Prop :=
  ∀ k l, 0 ≤ k → k ≤ l → b < l → l ≤ n - 1 → key (f k) ≤ key (f l)

/-- A pass up to `b` leaves the cells above `b` alone, and those below come from below. -/
lemma SettledAbove.of_rearranges {b : ℤ} {f g : ℤ → α} (h : SettledAbove key b n f)
    (hre : Rearranges 0 b f g) : SettledAbove key b n g := by
  intro k l hk hkl hlb hl
  rw [hre.outside (k := l) (Or.inr hlb)]
  by_cases hkb : k ≤ b
  · rcases hre.inside hk hkb with ⟨k', hk'₁, hk'₂, heq⟩
    rw [heq]
    exact h k' l hk'₁ (by omega) hlb hl
  · rw [hre.outside (k := k) (Or.inr (by omega))]
    exact h k l hk hkl hlb hl

lemma bubbleFrom_spec (n : ℤ) (m : ℕ) : ∀ (arr : Block α) (i : ℤ),
    (n - 1 - i).toNat = m → 0 ≤ i → arr.Covers 0 (n - 1) →
    SettledAbove key (n - 1 - i) n arr.cells →
    ∃ g, bubbleFrom key n arr i = .ok (arr.withCells g)
      ∧ AdjSwaps key 0 (n - 1) arr.cells g ∧ Ascends key 0 (n - 1) g := by
  induction m with
  | zero =>
      intro arr i hm hi hcov hset
      refine ⟨arr.cells, ?_, Relation.ReflTransGen.refl, fun k l hk hkl hl => ?_⟩
      · rw [bubbleFrom, if_neg (by omega)]
        rfl
      · by_cases hl0 : l = 0
        · have hkl' : k = l := by omega
          rw [hkl']
        · exact hset k l hk hkl (by omega) hl
  | succ m ih =>
      intro arr i hm hi hcov hset
      set b := n - 1 - i with hb
      have hcovb : arr.Covers 0 b := hcov.mono (le_refl 0) (by omega)
      rcases @bubblePass_spec α key b _ arr 0 false rfl (le_refl 0) (by omega) hcovb
          (fun k hk hk' => by rw [show k = 0 by omega]) with ⟨g, sw, hrun, hswaps, hlast, hflag⟩
      have hswaps' : AdjSwaps key 0 (n - 1) arr.cells g := hswaps.mono (le_refl 0) (by omega)
      have habove := hset.of_rearranges hswaps.rearranges
      rw [bubbleFrom, if_pos (by omega), ← hb, hrun]
      cases sw with
      | false =>
          rcases hflag rfl with ⟨_, hg, hpairs⟩
          refine ⟨g, by simp, hswaps', fun k l hk hkl hl => ?_⟩
          by_cases hlb : b < l
          · exact habove k l hk hkl hlb hl
          · exact ascends_of_neighbours hpairs k l hk hkl (by omega)
      | true =>
          have hset' : SettledAbove key (n - 1 - (i + 1)) n g := by
            intro k l hk hkl hlb hl
            by_cases hl' : b < l
            · exact habove k l hk hkl hl' hl
            · rw [show l = b by omega]
              exact hlast k hk (by omega)
          rcases ih (arr.withCells g) (i + 1) (by omega) (by omega)
            (hcov.withCells _) hset' with ⟨g', hrun', hswaps'', hasc⟩
          exact ⟨g', by simpa using hrun', hswaps'.trans hswaps'', hasc⟩

theorem bubbleSort_spec (hcov : arr.Covers 0 (n - 1)) :
    ∃ g, bubbleSort key arr n = .ok (arr.withCells g)
      ∧ AdjSwaps key 0 (n - 1) arr.cells g ∧ Ascends key 0 (n - 1) g :=
  bubbleFrom_spec n _ arr 0 rfl (le_refl 0) hcov fun k l _ _ h₁ h₂ => by omega

/-! ## Insertion sort -/

/-- The cells `0..i` ascend, except that the cell at `h` may be too small for its place. -/
def AscendsBut (key : α → ℤ) (i h : ℤ) (f : ℤ → α) : Prop :=
  ∀ k l, 0 ≤ k → k ≤ l → l ≤ i → l ≠ h ∨ k = l → key (f k) ≤ key (f l)

/-- Moving the small cell one place down. -/
lemma AscendsBut.swap {i j : ℤ} {f : ℤ → α} (h : AscendsBut key i (j + 1) f) (hj : 0 ≤ j)
    (hji : j + 1 ≤ i) (hlt : key (f (j + 1)) < key (f j)) :
    AscendsBut key i j (f ∘ Equiv.swap j (j + 1)) := by
  intro k l hk hkl hl hor
  simp only [Function.comp_apply, Equiv.swap_apply_def]
  have hlt' := le_of_lt hlt
  split_ifs with hkj hlj hlj' hkj' hlj hlj' hlj hlj'
  · exact le_refl _
  · exact hlt'
  · exact h (j + 1) l (by omega) (by omega) hl (Or.inl hlj')
  · omega
  · exact le_refl _
  · exact h j l (by omega) (by omega) hl (Or.inl hlj')
  · omega
  · exact h k j hk (by omega) (by omega) (Or.inl (by omega))
  · exact h k l hk hkl hl (Or.inl hlj')

/-- Where the small cell is not smaller than the one below it, it is in its place. -/
lemma AscendsBut.ascends {i j : ℤ} {f : ℤ → α} (h : AscendsBut key i (j + 1) f)
    (hle : key (f j) ≤ key (f (j + 1))) : Ascends key 0 i f := by
  intro k l hk hkl hl
  by_cases hlj : l = j + 1
  · by_cases hkj : k = l
    · rw [hkj]
    · rw [hlj]
      exact le_trans (h k j hk (by omega) (by omega) (Or.inl (by omega))) hle
  · exact h k l hk hkl hl (Or.inl hlj)

/-- Moving the hole one place down is an exchange in the filled array. -/
lemma update_shift (f : ℤ → α) (x : α) (j : ℤ) :
    Function.update (Function.update f (j + 1) (f j)) j x
      = Function.update f (j + 1) x ∘ Equiv.swap j (j + 1) := by
  funext k
  simp only [Function.comp_apply, Function.update_apply, Equiv.swap_apply_def]
  split_ifs <;> first | rfl | omega

/-- **The shifting loop.**  `f` is the array with the element in hand put into the hole at `j + 1`;
the loop leaves a hole which, when it is filled, makes the cells `0..i` ascend. -/
lemma shiftRight_spec (x : α) (i : ℤ) (m : ℕ) : ∀ (arr : Block α) (j : ℤ),
    (j + 1).toNat = m → -1 ≤ j → j + 1 ≤ i → arr.Covers 0 i →
    AscendsBut key i (j + 1) (Function.update arr.cells (j + 1) x) →
    ∃ g h, shiftRight key x arr j = .ok (arr.withCells g, h) ∧ -1 ≤ h ∧ h + 1 ≤ i
      ∧ AdjSwaps key 0 i (Function.update arr.cells (j + 1) x) (Function.update g (h + 1) x)
      ∧ Ascends key 0 i (Function.update g (h + 1) x) := by
  induction m with
  | zero =>
      intro arr j hm hj hji hcov hbut
      refine ⟨arr.cells, j, ?_, hj, hji, Relation.ReflTransGen.refl, fun k l hk hkl hl => ?_⟩
      · rw [shiftRight, if_neg (by omega)]
        rfl
      · exact hbut k l hk hkl hl (by omega)
  | succ m ih =>
      intro arr j hm hj hji hcov hbut
      have hj0 : 0 ≤ j := by omega
      have hxj : Function.update arr.cells (j + 1) x (j + 1) = x := Function.update_self _ _ _
      have hyj : Function.update arr.cells (j + 1) x j = arr.cells j :=
        Function.update_of_ne (by omega) _ _
      rw [shiftRight, if_pos hj0]
      simp only [hcov.load hj0 (show j ≤ i by omega),
        hcov.store (x := arr.cells j) (show 0 ≤ j + 1 by omega) hji, ok_bind]
      split_ifs with hgt
      · set g' := Function.update arr.cells (j + 1) (arr.cells j) with hg'
        have hfill : Function.update g' (j - 1 + 1) x
            = Function.update arr.cells (j + 1) x ∘ Equiv.swap j (j + 1) := by
          rw [Int.sub_add_cancel, hg', update_shift]
        have hbut' := hbut.swap hj0 hji (by rw [hxj, hyj]; exact hgt)
        rw [show j = j - 1 + 1 by omega] at hbut'
        rcases ih (arr.withCells g') (j - 1) (by omega) (by omega) (by omega)
          (hcov.withCells _) (by rw [Block.withCells_cells, hfill]; simpa using hbut')
          with ⟨g, h, hrun, hh, hhi, hswaps, hasc⟩
        refine ⟨g, h, hrun, hh, hhi, ?_, hasc⟩
        refine Relation.ReflTransGen.head ⟨j, hj0, hji, ?_, rfl⟩ ?_
        · rw [hxj, hyj]
          exact hgt
        · rw [Block.withCells_cells, hfill] at hswaps
          exact hswaps
      · refine ⟨arr.cells, j, rfl, hj, hji, Relation.ReflTransGen.refl, hbut.ascends ?_⟩
        rw [hxj, hyj]
        exact not_lt.mp hgt

lemma insertionFrom_spec (n : ℤ) (m : ℕ) : ∀ (arr : Block α) (i : ℤ),
    (n - i).toNat = m → 0 ≤ i → arr.Covers 0 (n - 1) → Ascends key 0 (i - 1) arr.cells →
    ∃ g, insertionFrom key n arr i = .ok (arr.withCells g)
      ∧ AdjSwaps key 0 (n - 1) arr.cells g ∧ Ascends key 0 (n - 1) g := by
  induction m with
  | zero =>
      intro arr i hm hi hcov hasc
      refine ⟨arr.cells, ?_, Relation.ReflTransGen.refl, fun k l hk hkl hl => ?_⟩
      · rw [insertionFrom, if_neg (by omega)]
        rfl
      · exact hasc k l hk hkl (by omega)
  | succ m ih =>
      intro arr i hm hi hcov hasc
      have hcovi : arr.Covers 0 i := hcov.mono (le_refl 0) (by omega)
      -- before the loop the hole is at `i` and holds the element in hand
      have hself : Function.update arr.cells (i - 1 + 1) (arr.cells i) = arr.cells := by
        rw [show i - 1 + 1 = i by omega, Function.update_eq_self]
      have hbut : AscendsBut key i (i - 1 + 1)
          (Function.update arr.cells (i - 1 + 1) (arr.cells i)) := by
        rw [hself]
        intro k l hk hkl hl hor
        by_cases hli : k = l
        · rw [hli]
        · exact hasc k l hk hkl (by omega)
      rcases shiftRight_spec (arr.cells i) i _ arr (i - 1) rfl (by omega) (by omega) hcovi hbut with
        ⟨g, h, hrun, hh, hhi, hswaps, hasc'⟩
      rw [hself] at hswaps
      have hstore : (arr.withCells g).store (h + 1) (arr.cells i)
          = .ok (arr.withCells (Function.update g (h + 1) (arr.cells i))) :=
        (hcovi.withCells g).store (by omega) hhi
      have hswaps' := hswaps.mono (le_refl 0) (show i ≤ n - 1 by omega)
      rcases ih (arr.withCells (Function.update g (h + 1) (arr.cells i))) (i + 1) (by omega)
        (by omega) (hcov.withCells _)
        (by rw [show i + 1 - 1 = i by omega]; exact hasc') with ⟨g', hrun', hswaps'', hasc''⟩
      refine ⟨g', ?_, hswaps'.trans hswaps'', hasc''⟩
      rw [insertionFrom, if_pos (by omega)]
      simp only [hcovi.load hi (le_refl i), ok_bind, hrun, hstore, hrun', Block.withCells_withCells]

theorem insertionSort_spec (hcov : arr.Covers 0 (n - 1)) :
    ∃ g, insertionSort key arr n = .ok (arr.withCells g)
      ∧ AdjSwaps key 0 (n - 1) arr.cells g ∧ Ascends key 0 (n - 1) g :=
  insertionFrom_spec n _ arr 1 rfl (by omega) hcov (ascends_of_le (by omega))

/-! ## Selection sort -/

/-- The inner loop returns the index of a least cell of `i..n-1`. -/
lemma minFrom_spec (n i : ℤ) (arr : Block α) (hcov : arr.Covers i (n - 1)) (m : ℕ) :
    ∀ minIdx j : ℤ, (n - j).toNat = m → i ≤ minIdx → minIdx < j → j ≤ n →
    (∀ k, i ≤ k → k < j → key (arr.cells minIdx) ≤ key (arr.cells k)) →
    ∃ p, minFrom key n arr minIdx j = .ok p ∧ i ≤ p ∧ p ≤ n - 1
      ∧ ∀ k, i ≤ k → k ≤ n - 1 → key (arr.cells p) ≤ key (arr.cells k) := by
  induction m with
  | zero =>
      intro minIdx j hm hlo hlt hjn hmin
      refine ⟨minIdx, ?_, hlo, by omega, fun k hk hk' => hmin k hk (by omega)⟩
      rw [minFrom, if_neg (by omega)]
      rfl
  | succ m ih =>
      intro minIdx j hm hlo hlt hjn hmin
      rw [minFrom, if_pos (by omega)]
      simp only [hcov.load (show i ≤ j by omega) (show j ≤ n - 1 by omega),
        hcov.load hlo (show minIdx ≤ n - 1 by omega), ok_bind]
      split_ifs with hless
      · refine ih j (j + 1) (by omega) (by omega) (by omega) (by omega) fun k hk hk' => ?_
        by_cases hkj : k = j
        · rw [hkj]
        · exact le_trans (le_of_lt hless) (hmin k hk (by omega))
      · refine ih minIdx (j + 1) (by omega) hlo (by omega) (by omega) fun k hk hk' => ?_
        by_cases hkj : k = j
        · rw [hkj]
          exact not_lt.mp hless
        · exact hmin k hk (by omega)

/-- The cells below `i` are settled: each is at most every cell after it. -/
def SettledBelow (key : α → ℤ) (i n : ℤ) (f : ℤ → α) : Prop :=
  ∀ k l, 0 ≤ k → k < i → k ≤ l → l ≤ n - 1 → key (f k) ≤ key (f l)

/-- Putting a least cell of `i..n-1` at `i` settles it. -/
lemma SettledBelow.swap {i p : ℤ} {f : ℤ → α} (h : SettledBelow key i n f)
    (hp : i ≤ p) (hpn : p ≤ n - 1)
    (hmin : ∀ k, i ≤ k → k ≤ n - 1 → key (f p) ≤ key (f k)) :
    SettledBelow key (i + 1) n (f ∘ Equiv.swap i p) := by
  intro k l hk hki hkl hl
  simp only [Function.comp_apply]
  have hl' : (l = Equiv.swap i p l) ∨ (i ≤ Equiv.swap i p l ∧ Equiv.swap i p l ≤ n - 1) := by
    rw [Equiv.swap_apply_def]
    split_ifs with h1 h2
    · exact Or.inr ⟨hp, hpn⟩
    · exact Or.inr ⟨le_refl i, by omega⟩
    · exact Or.inl rfl
  by_cases hkieq : k = i
  · rw [hkieq, Equiv.swap_apply_left]
    exact hmin _ (by omega) (by omega)
  · rw [Equiv.swap_apply_of_ne_of_ne hkieq (by omega)]
    exact h k _ hk (by omega) (by omega) (by omega)

lemma selectionFrom_spec (n : ℤ) (m : ℕ) : ∀ (arr : Block α) (i : ℤ),
    (n - 1 - i).toNat = m → 0 ≤ i → arr.Covers 0 (n - 1) → SettledBelow key i n arr.cells →
    ∃ g, selectionFrom key n arr i = .ok (arr.withCells g)
      ∧ Rearranges 0 (n - 1) arr.cells g ∧ Ascends key 0 (n - 1) g := by
  induction m with
  | zero =>
      intro arr i hm hi hcov hset
      refine ⟨arr.cells, ?_, Rearranges.refl _ _ _, fun k l hk hkl hl => ?_⟩
      · rw [selectionFrom, if_neg (by omega)]
        rfl
      · by_cases hkl' : k = l
        · rw [hkl']
        · exact hset k l hk (by omega) hkl hl
  | succ m ih =>
      intro arr i hm hi hcov hset
      rcases minFrom_spec n i arr (hcov.mono hi (le_refl _)) _ i (i + 1) rfl (le_refl i) (by omega)
        (by omega) (fun k hk hk' => by rw [show k = i by omega]) with ⟨p, hrun, hp, hpn, hmin⟩
      have hset' := hset.swap hp hpn hmin
      have hswap := hcov.swap hi (show i ≤ n - 1 by omega) (show 0 ≤ p by omega) hpn
      rcases ih (arr.withCells (arr.cells ∘ Equiv.swap i p)) (i + 1) (by omega) (by omega)
        (hcov.withCells _) hset' with ⟨g, hrun', hre, hasc⟩
      refine ⟨g, ?_, (rearranges_swap arr.cells hi (by omega) (by omega) hpn).trans hre, hasc⟩
      rw [selectionFrom, if_pos (by omega), hrun]
      by_cases hpi : p = i
      · -- nothing to exchange
        subst hpi
        simp only [Equiv.swap_self, Equiv.coe_refl, Function.comp_id, Block.withCells_self] at hrun'
        simpa using hrun'
      · simpa [hpi, hswap] using hrun'

theorem selectionSort_spec (hcov : arr.Covers 0 (n - 1)) :
    ∃ g, selectionSort key arr n = .ok (arr.withCells g)
      ∧ Rearranges 0 (n - 1) arr.cells g ∧ Ascends key 0 (n - 1) g :=
  selectionFrom_spec n _ arr 0 rfl (le_refl 0) hcov fun k l h₁ h₂ => by omega

end

end CExercises.Sorting
