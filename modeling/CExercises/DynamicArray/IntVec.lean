import CExercises.DynamicArray.IntVecDef

/-!
# How an `IntVec` grows

`VecHolds v xs` is what a push preserves: the values pushed so far stand in the first cells, and the
block has as many cells as `capacity` says.  A full vector doubles its capacity, which makes room
for one more exactly when the capacity was not zero.  Since doubling keeps a positive capacity
positive and zero zero, the client decides with `initial_capacity` once and for all.
-/

namespace CExercises.DynamicArray

variable {v v' : IntVec} {xs : List ℤ} {p : Push} {ps : List Push}

/-- The vector holds the values `xs`, within its capacity. -/
structure VecHolds (v : IntVec) (xs : List ℤ) : Prop where
  size_le : v.size ≤ v.capacity
  size_eq : v.size = xs.length
  first_eq : v.data.first = 0
  last_eq : v.data.last = v.capacity - 1
  contents : seg v.data.cells 0 (v.size - 1) = xs

lemma VecHolds.covers (h : VecHolds v xs) : v.data.Covers 0 (v.capacity - 1) :=
  ⟨le_of_eq h.first_eq, le_of_eq h.last_eq.symm⟩

/-- A store with room for it. -/
lemma VecHolds.store (h : VecHolds v xs) (hroom : v.size < v.capacity)
    (hcap : v.capacity ≤ INT_MAX) (value : ℤ) :
    ∃ v', vecStore v value = .ok v' ∧ VecHolds v' (xs ++ [value]) ∧ v'.capacity = v.capacity := by
  have hsize : 0 ≤ v.size := by
    rw [h.size_eq]
    exact Int.natCast_nonneg _
  refine ⟨{ v with data := v.data.withCells (Function.update v.data.cells v.size value)
                   size := v.size + 1 }, ?_, ?_, rfl⟩
  · simp [vecStore, intSucc_eq (show v.size < INT_MAX by omega), h.covers.store hsize (by omega)]
  · refine ⟨Int.add_one_le_of_lt hroom, by simp [h.size_eq], h.first_eq, h.last_eq, ?_⟩
    have hold : seg (Function.update v.data.cells v.size value) 0 (v.size - 1) = xs := by
      rw [← h.contents]
      exact seg_congr fun k _ hk => Function.update_of_ne (by omega) _ _
    simp only [Block.withCells_cells, show v.size + 1 - 1 = v.size by omega]
    rw [seg_concat hsize, hold, Function.update_self]

/-- The block after `realloc`, before the new value is in it. -/
lemma VecHolds.grow (h : VecHolds v xs) {newCap : ℤ} (hle : v.capacity ≤ newCap)
    (fresh : ℤ → ℤ) :
    VecHolds { v with data := realloc (some v.data) newCap fresh, capacity := newCap } xs where
  size_le := le_trans h.size_le hle
  size_eq := h.size_eq
  first_eq := rfl
  last_eq := rfl
  contents := by
    have hsize := h.size_le
    have hcov : v.data.Covers 0 (v.size - 1) := h.covers.mono (le_refl 0) (by omega)
    exact (seg_realloc hcov).trans h.contents

/-- The specification: a list that grows at its end. -/
def listPush (xs : List ℤ) (p : Push) : Except Stop (List ℤ × Option String) :=
  .ok (xs ++ [p.value], none)

/-- What a push preserves, next to `VecHolds`. -/
def Grows (v : IntVec) (xs : List ℤ) : Prop := VecHolds v xs ∧ 0 < v.capacity

/-- The capacity is below `2 ^ 30`. -/
def CapacitySmall (v : IntVec) : Prop := v.capacity < 1073741824

lemma grows_push (v : IntVec) (xs : List ℤ) (p : Push) (h : Grows v xs) (hcap : CapacitySmall v) :
    Matches Grows (push v p) (listPush xs p) := by
  obtain ⟨hv, hpos⟩ := h
  unfold CapacitySmall at hcap
  have hmax : INT_MAX = 2147483647 := rfl
  simp only [push, vecPush]
  split_ifs with hfull
  · have hfits : FitsInt (v.capacity * 2) := ⟨by unfold INT_MIN; omega, by omega⟩
    have hgrown := hv.grow (show v.capacity ≤ v.capacity * 2 by omega) p.fresh
    obtain ⟨v', hrun, hv', hcap'⟩ :=
      hgrown.store (by simp only; omega) (by simp only; omega) p.value
    refine ⟨v', by simp [intMul, hfits, hrun], hv', ?_⟩
    rw [hcap']
    simp only
    omega
  · have hroom : v.size < v.capacity := by
      have := hv.size_le
      omega
    obtain ⟨v', hrun, hv', hcap'⟩ := hv.store hroom (by omega) p.value
    exact ⟨v', by simp [hrun], hv', by omega⟩

lemma runCalls_listPush (xs : List ℤ) (ps : List Push) :
    runCalls listPush xs ps = .ok (xs ++ ps.map Push.value, List.replicate ps.length none) := by
  induction ps generalizing xs with
  | nil => simp
  | cons p ps ih =>
      rw [runCalls_cons_ok rfl (ih (xs ++ [p.value]))]
      simp [List.replicate_succ]

/-- A vector of capacity zero has no room for the first value. -/
lemma push_of_empty (fresh : ℤ → ℤ) (p : Push) :
    push { data := Block.ofCells 0 fresh, size := 0, capacity := 0 } p = .error .outOfBounds := rfl

/-- **An `IntVec` grows safely** unless it starts without any room. -/
theorem vec_growth_iff (c : ℤ) (hc : 0 ≤ c) (fresh : ℤ → ℤ) (ps : List Push)
    (hcap : ∀ v, vecCreate c (some ()) (some fresh) = some v → Along CapacitySmall push v ps) :
    (∃ v out, pushAll (vecCreate c (some ()) (some fresh)) ps = .ok (v, out)
      ∧ VecHolds v (ps.map Push.value)) ↔ 0 < c ∨ ps = [] := by
  have hcreate : VecHolds { data := Block.ofCells c fresh, size := 0, capacity := c } [] :=
    ⟨hc, rfl, rfl, rfl, seg_nil (by simp only; omega)⟩
  constructor
  · rintro ⟨v, out, hrun, _⟩
    rcases Int.lt_or_eq_of_le hc with hpos | rfl
    · exact .inl hpos
    · cases ps with
      | nil => exact .inr rfl
      | cons p ps =>
          have hstop := push_of_empty fresh p
          simp [pushAll, vecCreate, runCalls, hstop] at hrun
  · rintro (hpos | rfl)
    · have hmatch := runCalls_matches_along grows_push ps _ [] ⟨hcreate, hpos⟩ (hcap _ rfl)
      rw [runCalls_listPush] at hmatch
      obtain ⟨v, hrun, hv, _⟩ := hmatch
      exact ⟨v, _, hrun, by simpa using hv⟩
    · exact ⟨_, [], rfl, hcreate⟩

/-- Two values and one doubling. -/
theorem vec_growth_iff_doubles :
    let ps : List Push := [⟨5, fun _ => 0⟩, ⟨10, fun _ => 0⟩]
    (∀ v, vecCreate 1 (some ()) (some fun _ => 0) = some v → Along CapacitySmall push v ps)
      ∧ ∃ v out, pushAll (vecCreate 1 (some ()) (some fun _ => 0)) ps = .ok (v, out)
        ∧ VecHolds v [5, 10] := by
  intro ps
  have hcap : ∀ v, vecCreate 1 (some ()) (some fun _ => 0) = some v →
      Along CapacitySmall push v ps := by
    -- the capacities are 1, 1 and 2
    rintro v ⟨rfl⟩
    refine ⟨show (1 : ℤ) < 1073741824 by decide, ?_⟩
    rintro v o ⟨rfl⟩
    refine ⟨show (1 : ℤ) < 1073741824 by decide, ?_⟩
    rintro v o ⟨rfl⟩
    exact show (2 : ℤ) < 1073741824 by decide
  exact ⟨hcap, (vec_growth_iff 1 (by decide) _ ps hcap).mpr (.inl (by decide))⟩

/-- The first push on a vector without room writes past its end. -/
theorem vec_push_overruns_empty :
    let ps : List Push := [⟨5, fun _ => 0⟩]
    (∀ v, vecCreate 0 (some ()) (some fun _ => 0) = some v → Along CapacitySmall push v ps)
      ∧ pushAll (vecCreate 0 (some ()) (some fun _ => 0)) ps = .error .outOfBounds
      ∧ ¬ ∃ v out, pushAll (vecCreate 0 (some ()) (some fun _ => 0)) ps = .ok (v, out)
          ∧ VecHolds v [5] := by
  intro ps
  have hstop : pushAll (vecCreate 0 (some ()) (some fun _ => 0)) ps = .error .outOfBounds := rfl
  refine ⟨?_, hstop, ?_⟩
  · rintro v ⟨rfl⟩
    refine ⟨show (0 : ℤ) < 1073741824 by decide, fun v o hrun => ?_⟩
    rw [push_of_empty] at hrun
    cases hrun
  · rintro ⟨v, out, hrun, _⟩
    rw [hstop] at hrun
    cases hrun

end CExercises.DynamicArray
