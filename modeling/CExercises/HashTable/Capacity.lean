import CExercises.HashTable.Refinement
import Mathlib.Order.Bounds.Basic

/-!
# The capacity remembers the largest population

The table grows when an insertion would push the load past `3/4`, and it never shrinks.  So its
capacity is decided by the largest number of entries it has held, and not by the order of the calls:
it is the least one of the form `8 * 2 ^ k` for which that many entries are within the load.

`call_moves` says what a call can do to `count` and `capacity`.  When a call grows the table, the
entry it adds is a new peak, since the capacity was enough for the old one; and one doubling is
enough, since the old capacity was the next smaller of its form.
-/

namespace CExercises.HashTable

variable {M : Malloc Entry} {s s' : State} {chains : ℕ → List Item} {p : ℤ}

/-- The capacities that `peak` entries load to at most `3/4`. -/
def capacitiesFor (peak : ℤ) : Set ℕ := {c | (∃ k, c = 8 * 2 ^ k) ∧ 4 * peak ≤ 3 * (c : ℤ)}

/-- The largest `count` on the way of a run from `s`. -/
def peakFrom (M : Malloc Entry) : State → List Call → ℤ
  | s, [] => s.map.count
  | s, c :: cs =>
      match call M s c with
      | .error _ => s.map.count
      | .ok (s', _) => max s.map.count (peakFrom M s' cs)

/-- The largest `count` that a client's calls have led to. -/
def peak (M : Malloc Entry) (cs : List Call) : ℤ := peakFrom M hmapCreate cs

/-- A capacity of the form is enough for a smaller peak as well. -/
lemma capacitiesFor_anti {p q : ℤ} (h : p ≤ q) : capacitiesFor q ⊆ capacitiesFor p := by
  rintro c ⟨hform, hload⟩
  exact ⟨hform, by omega⟩

/-- Of the form, the next capacity after `c` is `c * 2`. -/
lemma double_le_of_lt {c d : ℕ} (hc : ∃ k, c = 8 * 2 ^ k) (hd : ∃ k, d = 8 * 2 ^ k) (h : c < d) :
    c * 2 ≤ d := by
  rcases hc with ⟨j, rfl⟩
  rcases hd with ⟨k, rfl⟩
  have hjk : j < k := (Nat.pow_lt_pow_iff_right (by omega : 1 < 2)).mp (by omega)
  have hpow : 2 ^ (j + 1) ≤ 2 ^ k := Nat.pow_le_pow_right (by omega) hjk
  rw [Nat.pow_succ] at hpow
  omega

/-- **One call** moves the capacity to the least one for the new peak. -/
lemma isLeast_of_moves (hinv : Inv s chains) (hle : s.map.count ≤ p)
    (hleast : IsLeast (capacitiesFor p) s.map.capacity) (hmoves : Moves s.map s'.map) :
    IsLeast (capacitiesFor (max p s'.map.count)) s'.map.capacity := by
  obtain ⟨⟨hform, hpeak⟩, hmin⟩ := hleast
  cases hmoves with
  | keeps hcount hcap =>
      rw [max_eq_left (le_trans hcount hle), hcap]
      exact ⟨⟨hform, hpeak⟩, hmin⟩
  | adds hcount hcap =>
      have hge := hinv.capacity_ge
      have hload := hinv.load
      split_ifs at hcap with hover
      · -- the old capacity was enough for the old peak, so the new entry is the new one
        have hmax : max p s'.map.count = s.map.count + 1 := by omega
        have hform' : ∃ k, s.map.capacity * 2 = 8 * 2 ^ k := by
          rcases hform with ⟨k, hk⟩
          exact ⟨k + 1, by rw [hk, Nat.pow_succ]; omega⟩
        rw [hmax, hcap]
        refine ⟨⟨hform', by push_cast; omega⟩, ?_⟩
        rintro c ⟨hc, hfits⟩
        exact double_le_of_lt hform hc (by omega)
      · rw [hcap]
        exact ⟨⟨hform, by omega⟩, fun c hc => hmin (capacitiesFor_anti (le_max_left _ _) hc)⟩

lemma count_le_peakFrom (M : Malloc Entry) (s : State) (cs : List Call) :
    s.map.count ≤ peakFrom M s cs := by
  cases cs with
  | nil => exact le_refl _
  | cons c cs =>
      rw [peakFrom]
      split
      · exact le_refl _
      · exact le_max_left _ _

/-- **A whole run**, from a state whose past peak is `p`. -/
lemma isLeast_run (cs : List Call) (hinv : Inv s chains) (hle : s.map.count ≤ p)
    (hleast : IsLeast (capacitiesFor p) s.map.capacity)
    (hcap : Along (fun s => s.map.capacity < 2 ^ 30) (call M) s cs) :
    ∃ s' rets chains', runCalls (call M) s cs = .ok (s', rets) ∧ Inv s' chains'
      ∧ s'.map.capacity < 2 ^ 30
      ∧ IsLeast (capacitiesFor (max p (peakFrom M s cs))) s'.map.capacity := by
  induction cs generalizing s chains p with
  | nil =>
      refine ⟨s, [], chains, rfl, hinv, hcap, ?_⟩
      rw [peakFrom, max_eq_left hle]
      exact hleast
  | cons c cs ih =>
      rcases call_moves (M := M) hinv hcap.1 c with ⟨s₁, r, chains₁, hcall, hinv₁, hmoves⟩
      have hleast₁ := isLeast_of_moves hinv hle hleast hmoves
      rcases ih hinv₁ (le_max_right p _) hleast₁ (hcap.2 s₁ r hcall) with
        ⟨s', rets, chains', hrun, hinv', hcap', hleast'⟩
      refine ⟨s', r :: rets, chains', runCalls_cons_ok hcall hrun, hinv', hcap', ?_⟩
      have hpeak : max p (peakFrom M s (c :: cs))
          = max (max p s₁.map.count) (peakFrom M s₁ cs) := by
        have hfirst := count_le_peakFrom M s₁ cs
        simp only [peakFrom, hcall]
        omega
      rw [hpeak]
      exact hleast'

lemma run_isLeast (cs : List Call) (hcap : CapacityBelow M cs) :
    ∃ s rets chains, run M cs = .ok (s, rets) ∧ Inv s chains ∧ s.map.capacity < 2 ^ 30
      ∧ IsLeast (capacitiesFor (peak M cs)) s.map.capacity := by
  have hstart : IsLeast (capacitiesFor 0) hmapCreate.map.capacity := by
    refine ⟨⟨⟨0, rfl⟩, by decide⟩, ?_⟩
    rintro c ⟨⟨k, rfl⟩, _⟩
    exact Nat.le_mul_of_pos_right 8 (Nat.two_pow_pos k)
  rcases isLeast_run cs inv_create (le_refl 0) hstart hcap with
    ⟨s, rets, chains, hrun, hinv, hlt, hleast⟩
  have hpeak : max 0 (peakFrom M hmapCreate cs) = peak M cs :=
    max_eq_right (count_le_peakFrom M hmapCreate cs)
  rw [hpeak] at hleast
  exact ⟨s, rets, chains, hrun, hinv, hlt, hleast⟩

/-- The `put` of a key that `hmap_contains` finds. -/
lemma Inv.capacity_update (hinv : Inv s chains) (hcap : s.map.capacity < 2 ^ 30) {key : CStr}
    {value : ℤ} {r : Ret} (hhit : hmapContains s key 0 = .ok 1)
    (hcall : call M s (.put key value) = .ok (s', r)) : s'.map.capacity = s.map.capacity := by
  have hkey : ∃ v, Has chains key v := by
    by_contra hnone
    have hmiss := (hinv.get key 0).2 fun v hv => hnone ⟨v, hv⟩
    simp [hmapContains, hmiss] at hhit
  rcases hinv.put (M := M) key value (fun _ => doubles_below hcap) with ⟨s₁, _, hrun, _, _, hupd, _⟩
  simp only [call, hrun, ok_bind, pure_eq_ok] at hcall
  cases hcall
  rw [hupd hkey]

/-- A delete that fails finds no entry, and leaves the map alone. -/
lemma Inv.capacity_failed_delete (hinv : Inv s chains) {key : CStr}
    (hcall : call M s (.delete key) = .ok (s', .flag 0)) : s'.map.capacity = s.map.capacity := by
  by_cases hkey : ∃ v, Has chains key v
  · rcases (hinv.delete key).1 hkey with ⟨s₁, _, hrun, _, hcap', _⟩
    simp [call, hrun] at hcall
  · have hrun := (hinv.delete key).2 fun v hv => hkey ⟨v, hv⟩
    simp only [call, hrun, ok_bind, pure_eq_ok] at hcall
    cases hcall
    rfl

/-- **The peak decides the capacity.** -/
theorem hmap_capacity_of_peak (M : Malloc Entry) (cs : List Call) (hcap : CapacityBelow M cs) :
    ∃ s rets, run M cs = .ok (s, rets) ∧ IsLeast (capacitiesFor (peak M cs)) s.map.capacity
      -- no call shrinks the table
      ∧ (∀ c s' r, call M s c = .ok (s', r) → s.map.capacity ≤ s'.map.capacity)
      -- the update of a key and a delete that fails do not grow it
      ∧ (∀ key value s' r, hmapContains s key 0 = .ok 1 → call M s (.put key value) = .ok (s', r) →
          s'.map.capacity = s.map.capacity)
      ∧ (∀ key s', call M s (.delete key) = .ok (s', .flag 0) → s'.map.capacity = s.map.capacity)
      -- and nothing else of the past matters
      ∧ ∀ M' cs' s' rets', CapacityBelow M' cs' → run M' cs' = .ok (s', rets') →
          peak M' cs' = peak M cs → s'.map.capacity = s.map.capacity := by
  rcases run_isLeast cs hcap with ⟨s, rets, chains, hrun, hinv, hlt, hleast⟩
  refine ⟨s, rets, hrun, hleast, ?_, ?_, ?_, ?_⟩
  · intro c s' r hcall
    exact (capacity_call hinv hlt hcall).1
  · intro key value s' r hhit hcall
    exact hinv.capacity_update hlt hhit hcall
  · intro key s' hcall
    exact hinv.capacity_failed_delete hcall
  · intro M' cs' s' rets' hcap' hrun' hpeak
    rcases run_isLeast cs' hcap' with ⟨s₁, rets₁, _, hrun₁, _, _, hleast₁⟩
    rw [hrun₁] at hrun'
    cases hrun'
    rw [hpeak] at hleast₁
    exact hleast₁.unique hleast

theorem hmap_capacity_of_peak_growingClient :
    CapacityBelow Malloc.bump growingClient ∧ peak Malloc.bump growingClient = 7
      ∧ ∃ s rets, run Malloc.bump growingClient = .ok (s, rets) ∧ s.map.capacity = 16
        ∧ IsLeast (capacitiesFor 7) s.map.capacity := by
  have hbelow : CapacityBelow Malloc.bump growingClient := capacityBelow_of_length _ (by decide)
  have hpeak : peak Malloc.bump growingClient = 7 := by decide +kernel
  obtain ⟨s, rets, hrun, hleast, _⟩ := hmap_capacity_of_peak Malloc.bump growingClient hbelow
  rw [hpeak] at hleast
  exact ⟨hbelow, hpeak, s, rets, hrun, capacity_growingClient hrun, hleast⟩

end CExercises.HashTable
