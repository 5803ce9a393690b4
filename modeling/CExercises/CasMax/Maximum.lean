import CExercises.CasMax.Def
import Mathlib.Order.Bounds.Basic
import Mathlib.Algebra.Order.Ring.Int

/-!
# The atomic maximum is the maximum

What a thread has in `cur` is some value that `maximum` had, and `maximum` only grows, so `cur` is a
lower bound of it.  That is all there is to the loop: leaving it because `cur` is large enough
shows that `maximum` is, and an exchange that succeeds raises it to the value.
-/

namespace CExercises.CasMax

section

variable {T : Type} {values : T → List ℤ} {initial m : ℤ} {s s' : State T} {t : T} {w : Worker}

/-- A value that the thread keeps in `cur`; at the exchange the value to store is above it. -/
def Lags (vs : List ℤ) (m : ℤ) (w : Worker) : Prop :=
  match w.pc with
  | .load => True
  | .test cur => cur ≤ m
  | .exchange cur => cur ≤ m ∧ ∀ v, vs[w.i]? = some v → cur < v

structure Inv (values : T → List ℤ) (initial : ℤ) (s : State T) : Prop where
  lags : ∀ t, Lags (values t) s.maximum (s.workers t)
  above : initial ≤ s.maximum ∧ ∀ t, ∀ v ∈ submitted values s t, v ≤ s.maximum
  origin : s.maximum = initial ∨ ∃ t, s.maximum ∈ submitted values s t

lemma inv_init : Inv values initial ⟨initial, fun _ => ⟨0, .load⟩⟩ :=
  ⟨fun _ => trivial, ⟨le_refl _, by simp [submitted]⟩, Or.inl rfl⟩

lemma Lags.mono {vs : List ℤ} {m m' : ℤ} (h : Lags vs m w) (hle : m ≤ m') : Lags vs m' w := by
  rcases w with ⟨i, _ | cur | cur⟩
  · trivial
  · exact le_trans h hle
  · exact ⟨le_trans h.1 hle, h.2⟩

variable [DecidableEq T]

@[simp] lemma move_maximum : (s.move t m w).maximum = m := rfl

lemma submitted_move_self : submitted values (s.move t m w) t = (values t).take w.i := by
  simp [submitted, State.move]

lemma submitted_move_of_ne {u : T} (h : u ≠ t) :
    submitted values (s.move t m w) u = submitted values s u := by
  simp [submitted, State.move, h]

/-- **One thread moves.**  It may raise `maximum`, and only to a value whose turn is then over. -/
lemma Inv.move (h : Inv values initial s) (hm : s.maximum ≤ m) (hlags : Lags (values t) m w)
    (hkeeps : submitted values s t ⊆ (values t).take w.i)
    (habove : ∀ v ∈ (values t).take w.i, v ∈ submitted values s t ∨ v ≤ m)
    (horigin : m = s.maximum ∨ m ∈ (values t).take w.i) :
    Inv values initial (s.move t m w) := by
  refine ⟨fun u => ?_, ⟨le_trans h.above.1 hm, fun u v hv => ?_⟩, ?_⟩
  · by_cases hu : u = t
    · subst hu
      simpa [State.move] using hlags
    · simpa [State.move, hu] using (h.lags u).mono hm
  · by_cases hu : u = t
    · subst hu
      rw [submitted_move_self] at hv
      rcases habove v hv with hold | hle
      · exact le_trans (h.above.2 u v hold) hm
      · exact hle
    · rw [submitted_move_of_ne hu] at hv
      exact le_trans (h.above.2 u v hv) hm
  · rw [move_maximum]
    rcases horigin with hsame | hnew
    · rw [hsame]
      rcases h.origin with hinit | ⟨u, hu⟩
      · exact Or.inl hinit
      · refine Or.inr ⟨u, ?_⟩
        by_cases hut : u = t
        · subst hut
          rw [submitted_move_self]
          exact hkeeps hu
        · rw [submitted_move_of_ne hut]
          exact hu
    · refine Or.inr ⟨t, ?_⟩
      rw [submitted_move_self]
      exact hnew

/-- The turn of the value at `i` is over. -/
lemma mem_take_succ {vs : List ℤ} {i : ℕ} {v u : ℤ} (hv : vs[i]? = some v) :
    u ∈ vs.take (i + 1) ↔ u ∈ vs.take i ∨ u = v := by
  rw [List.take_add_one, hv]
  simp

/-- `maximum` never decreases: an exchange that succeeds stores a value above `cur`. -/
lemma Inv.maximum_le (h : Inv values initial s) (hstep : Step values t s s') :
    s.maximum ≤ s'.maximum := by
  cases hstep with
  | load | again | leave | fail => exact le_refl _
  | succeed hpc hv heq =>
      have hlags := h.lags t
      rw [hpc] at hlags
      rw [heq]
      exact le_of_lt (hlags.2 _ hv)

/-- **Step.** -/
lemma inv_step (h : Inv values initial s) (hstep : Step values t s s') :
    Inv values initial s' := by
  have hgrow := h.maximum_le hstep
  have hlags := h.lags t
  -- a thread that stays at its value submits nothing
  have hstay : ∀ {pc : Pc}, Lags (values t) s.maximum ⟨(s.workers t).i, pc⟩ →
      Inv values initial (s.move t s.maximum ⟨(s.workers t).i, pc⟩) := fun hpc =>
    h.move (le_refl _) hpc (List.Subset.refl _) (fun v hv => Or.inl hv) (Or.inl rfl)
  cases hstep with
  | load hpc hi =>
      rw [hpc] at hstay
      exact hstay (le_refl s.maximum)
  | again hpc hv hlt =>
      rw [hpc] at hlags hstay
      refine hstay ⟨hlags, fun u hu => ?_⟩
      rw [hv] at hu
      cases hu
      exact hlt
  | @leave i cur v hpc hv hle =>
      rw [hpc] at hlags
      have hsub : submitted values s t = (values t).take i := by rw [submitted, hpc]
      refine h.move (le_refl _) trivial ?_ ?_ (Or.inl rfl)
      · rw [hsub]
        exact fun u hu => (mem_take_succ hv).mpr (Or.inl hu)
      · intro u hu
        rw [hsub]
        rcases (mem_take_succ hv).mp hu with hold | rfl
        · exact Or.inl hold
        · exact Or.inr (le_trans (not_lt.mp hle) hlags)
  | @succeed i cur v hpc hv heq =>
      have hsub : submitted values s t = (values t).take i := by rw [submitted, hpc]
      refine h.move hgrow trivial ?_ ?_ (Or.inr ((mem_take_succ hv).mpr (Or.inr rfl)))
      · rw [hsub]
        exact fun u hu => (mem_take_succ hv).mpr (Or.inl hu)
      · intro u hu
        rw [hsub]
        exact ((mem_take_succ hv).mp hu).imp_right fun h => le_of_eq h
  | fail hpc =>
      rw [hpc] at hstay
      exact hstay (le_refl s.maximum)

/-- **Run.** -/
lemma inv_of_reachable (h : Reachable (system values initial) s) : Inv values initial s := by
  refine h.invariant ?_ ?_
  · rintro s rfl
    exact inv_init
  · intro t s s' hinv hstep
    exact inv_step hinv hstep

/-- Along a run the values of `maximum` ascend. -/
lemma trace_ascends {tr : List (T × State T)} (h : Trace (system values initial) tr s) :
    (tr.map (fun p => p.2.maximum) ++ [s.maximum]).Pairwise (· ≤ ·) := by
  induction h with
  | init _ => simp
  | @step tr s s' t hrun hmove ih =>
      have hle := (inv_of_reachable hrun.reachable).maximum_le hmove
      rw [List.pairwise_append] at ih
      rw [List.map_append, List.map_singleton, List.append_assoc]
      refine List.pairwise_append.mpr ⟨ih.1, by simpa using hle, fun a ha b hb => ?_⟩
      have has : a ≤ s.maximum := ih.2.2 a ha _ (List.mem_singleton_self _)
      simp only [List.cons_append, List.nil_append, List.mem_cons, List.not_mem_nil,
        or_false] at hb
      rcases hb with rfl | rfl
      · exact has
      · exact le_trans has hle

/-- **The atomic maximum.**  In every interleaving, with any spurious failures, `maximum` never
decreases and holds the initial value or one that was submitted; when all threads have finished
it is the greatest of them all. -/
theorem cas_loop_takes_maximum (values : T → List ℤ) (initial : ℤ) (tr : List (T × State T))
    (s : State T) (h : Trace (system values initial) tr s) :
    (tr.map (fun p => p.2.maximum) ++ [s.maximum]).Pairwise (· ≤ ·)
      ∧ (s.maximum = initial ∨ ∃ t, s.maximum ∈ submitted values s t)
      ∧ ((∀ t, Finished values s t) →
          IsGreatest (insert initial {v | ∃ t, v ∈ values t}) s.maximum) := by
  have hinv := inv_of_reachable h.reachable
  refine ⟨trace_ascends h, hinv.origin, fun hall => ?_⟩
  have hsubmitted : ∀ t, submitted values s t = values t := fun t =>
    List.take_of_length_le (not_lt.mp (hall t).2)
  constructor
  · rcases hinv.origin with hinit | ⟨t, ht⟩
    · exact Or.inl hinit
    · rw [hsubmitted] at ht
      exact Or.inr ⟨t, ht⟩
  · rintro v (rfl | ⟨t, ht⟩)
    · exact hinv.above.1
    · refine hinv.above.2 t v ?_
      rw [hsubmitted]
      exact ht

/-- Two threads with one value each.  The second loads before the first stores, fails once
because of that, once more spuriously, and then stores its own. -/
theorem cas_loop_takes_maximum_two_threads :
    ∃ (tr : List (Bool × State Bool)) (s : State Bool),
      Trace (system (fun t => if t then [9] else [7]) 0) tr s
      ∧ (∀ t, Finished (fun t => if t then [9] else [7]) s t)
      ∧ IsGreatest (insert 0 {v | ∃ t : Bool, v ∈ if t then [9] else [7]}) s.maximum := by
  have h₀ : Trace (system (fun t : Bool => if t then [9] else [7]) 0) [] _ := .init rfl
  have h₁ := h₀.step true (Step.load (i := 0) rfl (by decide))
  have h₂ := h₁.step false (Step.load (i := 0) rfl (by decide))
  have h₃ := h₂.step false (Step.again (i := 0) (v := 7) rfl rfl (by decide))
  have h₄ := h₃.step true (Step.again (i := 0) (v := 9) rfl rfl (by decide))
  have h₅ := h₄.step false (Step.succeed (i := 0) (v := 7) rfl rfl rfl)
  have h₆ := h₅.step true (Step.fail (i := 0) rfl)
  have h₇ := h₆.step true (Step.again (i := 0) (v := 9) rfl rfl (by decide))
  have h₈ := h₇.step true (Step.fail (i := 0) rfl)
  have h₉ := h₈.step true (Step.again (i := 0) (v := 9) rfl rfl (by decide))
  have h₁₀ := h₉.step true (Step.succeed (i := 0) (v := 9) rfl rfl rfl)
  refine ⟨_, _, h₁₀, ?_, (cas_loop_takes_maximum _ _ _ _ h₁₀).2.2 ?_⟩
  · rintro (_ | _) <;> exact ⟨rfl, lt_irrefl 1⟩
  · rintro (_ | _) <;> exact ⟨rfl, lt_irrefl 1⟩

end

end CExercises.CasMax
