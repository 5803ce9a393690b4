import CExercises.Spinlock.Def
import Mathlib.Algebra.BigOperators.Group.Finset.Basic
import Mathlib.Data.Fintype.BigOperators

/-!
# No increment is lost

The invariant names the thread that holds the lock, if there is one: the flag says whether there is
one, and no other thread is past its `spin_lock`.  Because nobody else is inside, the value that the
holder has loaded is still the value of the counter when it stores.

The counter is the initial value and one for every iteration whose store has happened.
-/

namespace CExercises.Spinlock

/-- The increments a thread has stored. -/
def Worker.added (w : Worker) : ℤ := w.i + if w.pc = .unlock then 1 else 0

section

variable {T : Type} [Fintype T] {iters : T → ℕ} {initial : ℤ} {s s' : State T}
  {holder holder' : Option T} {t : T}

/-- `holder` has the lock. -/
structure Inv (iters : T → ℕ) (initial : ℤ) (s : State T) (holder : Option T) : Prop where
  flag : s.flag = holder.isSome
  inside : ∀ t, Inside s t ↔ holder = some t
  fresh : ∀ t r, (s.workers t).pc = .store r → r = s.count
  bounded : ∀ t, (s.workers t).i ≤ iters t ∧ (Inside s t → (s.workers t).i < iters t)
  total : s.count = initial + ∑ t, (s.workers t).added

lemma inv_init : Inv iters initial (⟨false, initial, fun _ => ⟨0, .lock⟩⟩ : State T) none := by
  constructor
  · rfl
  · simp [Inside]
  · simp
  · simp [Inside]
  · simp [Worker.added]

variable [DecidableEq T]

/-- One thread changes, and the sum changes by what it adds. -/
lemma sum_added_update (f : T → Worker) (t : T) (w : Worker) :
    ∑ u, (Function.update f t w u).added = ∑ u, (f u).added + (w.added - (f t).added) := by
  have hrest : ∀ u ∈ Finset.univ.erase t, (Function.update f t w u).added = (f u).added := by
    intro u hu
    rw [Function.update_of_ne (Finset.ne_of_mem_erase hu)]
  rw [← Finset.add_sum_erase _ _ (Finset.mem_univ t),
    ← Finset.add_sum_erase _ (fun u => (f u).added) (Finset.mem_univ t),
    Finset.sum_congr rfl hrest, Function.update_self]
  omega

/-- **One thread moves.**  It may change the counter only as the holder of the lock, and by as much
as it then has added. -/
lemma Inv.move (h : Inv iters initial s holder) {flag : Bool} {count : ℤ} {w : Worker}
    (hflag : flag = holder'.isSome) (hself : w.pc ≠ .lock ↔ holder' = some t)
    (hothers : ∀ u, u ≠ t → (holder' = some u ↔ holder = some u))
    (hfresh : ∀ r, w.pc = .store r → r = count) (halone : count = s.count ∨ holder = some t)
    (hbounded : w.i ≤ iters t ∧ (w.pc ≠ .lock → w.i < iters t))
    (hadded : count = s.count + (w.added - (s.workers t).added)) :
    Inv iters initial ⟨flag, count, Function.update s.workers t w⟩ holder' := by
  have hw : Function.update s.workers t w t = w := Function.update_self _ _ _
  have hkeep : ∀ u, u ≠ t → Function.update s.workers t w u = s.workers u := fun u hu =>
    Function.update_of_ne hu _ _
  refine ⟨hflag, fun u => ?_, fun u r hr => ?_, fun u => ?_, ?_⟩
  · by_cases hu : u = t
    · subst hu
      simpa [Inside, hw] using hself
    · have hinside := h.inside u
      simp only [Inside, hkeep u hu] at hinside ⊢
      rw [hinside, hothers u hu]
  · by_cases hu : u = t
    · subst hu
      simp only [hw] at hr
      exact hfresh r hr
    · simp only [hkeep u hu] at hr
      have hr' := h.fresh u r hr
      rcases halone with hcount | hhold
      · exact hr'.trans hcount.symm
      · -- the thread with a loaded value would be a second one inside
        have hu' := (h.inside u).mp (by simp [Inside, hr])
        rw [hhold] at hu'
        exact absurd (Option.some.inj hu').symm hu
  · by_cases hu : u = t
    · subst hu
      simpa [Inside, hw] using hbounded
    · simpa [Inside, hkeep u hu] using h.bounded u
  · show count = initial + ∑ u, (Function.update s.workers t w u).added
    rw [sum_added_update, hadded, h.total]
    omega

/-- **Step.** -/
lemma inv_step (h : Inv iters initial s holder) (hstep : Step iters t s s') :
    ∃ holder', Inv iters initial s' holder' := by
  cases hstep with
  | spin hpc hi hflag =>
      refine ⟨holder, ?_⟩
      rw [← hflag]
      exact h
  | @acquire i hpc hi hflag =>
      have hnone : holder = none := by
        rw [h.flag] at hflag
        simpa using hflag
      refine ⟨some t, h.move rfl (by simp) ?_ (by simp) (Or.inl rfl)
        ⟨by simp; omega, by simp [hi]⟩ ?_⟩
      · intro u hu
        simp [hnone, Ne.symm hu]
      · simp [hpc, Worker.added]
  | @load i hpc =>
      have hin : holder = some t := (h.inside t).mp (by simp [Inside, hpc])
      have hb := h.bounded t
      simp only [Inside, hpc] at hb
      refine ⟨holder, h.move h.flag (by simp [hin]) (fun _ _ => Iff.rfl) (by simp) (Or.inl rfl)
        ⟨hb.1, fun _ => hb.2 (by simp)⟩ ?_⟩
      simp [hpc, Worker.added]
  | @store i r hpc =>
      have hin : holder = some t := (h.inside t).mp (by simp [Inside, hpc])
      have hb := h.bounded t
      simp only [Inside, hpc] at hb
      have hr : r = s.count := h.fresh t r (by rw [hpc])
      refine ⟨holder, h.move h.flag (by simp [hin]) (fun _ _ => Iff.rfl) (by simp) (Or.inr hin)
        ⟨hb.1, fun _ => hb.2 (by simp)⟩ ?_⟩
      simp [hpc, Worker.added, hr]
  | @unlock i hpc =>
      have hin : holder = some t := (h.inside t).mp (by simp [Inside, hpc])
      have hb := h.bounded t
      simp only [Inside, hpc] at hb
      have hlt := hb.2 (by simp)
      refine ⟨none, h.move rfl (by simp) ?_ (by simp) (Or.inl rfl) ⟨hlt, by simp⟩ ?_⟩
      · intro u hu
        simp [hin, Ne.symm hu]
      · simp [hpc, Worker.added]

/-- **Run.** -/
theorem inv_of_reachable (h : Reachable (system iters initial) s) :
    ∃ holder, Inv iters initial s holder := by
  refine h.invariant (I := fun s => ∃ holder, Inv iters initial s holder) ?_ ?_
  · rintro s rfl
    exact ⟨none, inv_init⟩
  · rintro t s s' ⟨holder, hinv⟩ hstep
    exact inv_step hinv hstep

/-- **The spinlock excludes, and no increment is lost.** -/
theorem spin_count_exact (iters : T → ℕ) (initial : ℤ) (s : State T)
    (h : Reachable (system iters initial) s) :
    (∀ t u, Inside s t → Inside s u → t = u)
    ∧ ((∀ t, Finished iters s t) → s.flag = false ∧ s.count = initial + ∑ t, (iters t : ℤ)) := by
  rcases inv_of_reachable h with ⟨holder, hinv⟩
  constructor
  · intro t u ht hu
    have hholder := (hinv.inside t).mp ht
    rw [(hinv.inside u).mp hu] at hholder
    exact (Option.some.inj hholder).symm
  · intro hall
    have hnone : holder = none := by
      rw [Option.eq_none_iff_forall_ne_some]
      intro t ht
      exact (hinv.inside t).mpr ht (hall t).1
    refine ⟨by rw [hinv.flag, hnone]; rfl, ?_⟩
    rw [hinv.total]
    congr 1
    refine Finset.sum_congr rfl fun t _ => ?_
    have hi : (s.workers t).i = iters t := le_antisymm (hinv.bounded t).1 (not_lt.mp (hall t).2)
    simp [Worker.added, (hall t).1, hi]

/-- Two threads, one iteration each; the second spins while the first holds the lock. -/
theorem spin_count_exact_contended :
    ∃ s : State Bool, Reachable (system (fun _ => 1) 5) s ∧ (∀ t, Finished (fun _ => 1) s t)
      ∧ s.flag = false ∧ s.count = 5 + ∑ _t : Bool, ((1 : ℕ) : ℤ) := by
  have h₀ : Reachable (system (fun _ : Bool => 1) 5) ⟨false, 5, fun _ => ⟨0, .lock⟩⟩ := .init rfl
  have h₁ := h₀.step false (Step.acquire (i := 0) rfl Nat.one_pos rfl)
  have h₂ := h₁.step true (Step.spin (i := 0) rfl Nat.one_pos rfl)
  have h₃ := h₂.step false (Step.load (i := 0) rfl)
  have h₄ := h₃.step false (Step.store (i := 0) rfl)
  have h₅ := h₄.step false (Step.unlock (i := 0) rfl)
  have h₆ := h₅.step true (Step.acquire (i := 0) rfl Nat.one_pos rfl)
  have h₇ := h₆.step true (Step.load (i := 0) rfl)
  have h₈ := h₇.step true (Step.store (i := 0) rfl)
  have h₉ := h₈.step true (Step.unlock (i := 0) rfl)
  refine ⟨_, h₉, ?_, (spin_count_exact _ _ _ h₉).2 ?_⟩
  · rintro (_ | _) <;> exact ⟨rfl, lt_irrefl 1⟩
  · rintro (_ | _) <;> exact ⟨rfl, lt_irrefl 1⟩

end

end CExercises.Spinlock
