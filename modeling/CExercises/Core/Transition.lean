import Mathlib.Algebra.BigOperators.Group.Finset.Basic
import Mathlib.Logic.Function.Basic
import Mathlib.Tactic.Common

/-!
# Interleavings

Threads that share memory are a transition system: a state holds the shared memory and where every
thread stands, and a step is one atomic action of one of them.  A system puts no condition on who
moves next, so its reachable states are those of *every* interleaving.

`Reachable.invariant` is the induction every safety proof goes through, and
`Reachable.invariant_with` the same with facts already known of the reachable states at hand.  A
`Trace` is one interleaving with the steps it took, for properties that depend on them.  A measure
that every step lowers bounds the length of all traces; where in addition only the states one wants
are `Stuck`, every run ends, and ends well.

The last section models condition variables.  A signal moves one arbitrary waiter, if there is one,
and a broadcast moves all of them.
-/

namespace CExercises

/-- Where a system may start, and what the actions with a given label may do. -/
structure System (σ ι : Type) where
  init : σ → Prop
  step : ι → σ → σ → Prop

section

variable {σ ι : Type} {S : System σ ι} {I J : σ → Prop} {s s' : σ}

/-- Some interleaving leads to this state. -/
inductive Reachable (S : System σ ι) : σ → Prop
  | init {s : σ} : S.init s → Reachable S s
  | step {s s' : σ} (i : ι) : Reachable S s → S.step i s s' → Reachable S s'

/-- **Invariants**, given others that are known already. -/
theorem Reachable.invariant_with (hJ : ∀ s, Reachable S s → J s) (hinit : ∀ s, S.init s → I s)
    (hstep : ∀ i s s', J s → I s → S.step i s s' → I s') (h : Reachable S s) : I s := by
  induction h with
  | init h => exact hinit _ h
  | step i hreach hmove ih => exact hstep i _ _ (hJ _ hreach) ih hmove

/-- **Invariants.** -/
theorem Reachable.invariant (hinit : ∀ s, S.init s → I s)
    (hstep : ∀ i s s', I s → S.step i s s' → I s') (h : Reachable S s) : I s :=
  h.invariant_with (J := fun _ => True) (fun _ _ => trivial) hinit
    fun i s s' _ hI hmove => hstep i s s' hI hmove

/-- An interleaving that ends here, with its steps: who moved, and in which state. -/
inductive Trace (S : System σ ι) : List (ι × σ) → σ → Prop
  | init {s : σ} : S.init s → Trace S [] s
  | step {tr : List (ι × σ)} {s s' : σ} (i : ι) : Trace S tr s → S.step i s s' →
      Trace S (tr ++ [(i, s)]) s'

lemma Trace.reachable {tr : List (ι × σ)} (h : Trace S tr s) : Reachable S s := by
  induction h with
  | init h => exact .init h
  | step i _ hmove ih => exact .step i ih hmove

/-- A state on the way is the end of a part of the trace. -/
lemma Trace.of_mem {p : ι × σ} {tr : List (ι × σ)} (h : Trace S tr s) (hp : p ∈ tr) :
    ∃ tr', tr' ⊆ tr ∧ Trace S tr' p.2 := by
  induction h with
  | init h => cases hp
  | @step tr s s' i hrun _ ih =>
      rcases List.mem_append.mp hp with hp | hp
      · rcases ih hp with ⟨tr', hsub, hrun'⟩
        exact ⟨tr', List.Subset.trans hsub (List.subset_append_left _ _), hrun'⟩
      · rw [List.mem_singleton.mp hp]
        exact ⟨tr, List.subset_append_left _ _, hrun⟩

/-- **What lasts.**  If a property, once there, stays, then it holds at the end of a trace exactly
when one of the steps brought it about. -/
theorem Trace.exists_step_iff {P : ι → σ → Prop} {tr : List (ι × σ)}
    (hinit : ∀ s, S.init s → ¬ I s)
    (hstep : ∀ i s s', Reachable S s → S.step i s s' → (I s' ↔ I s ∨ P i s)) (h : Trace S tr s) :
    I s ↔ ∃ p ∈ tr, P p.1 p.2 := by
  induction h with
  | init h => simp [hinit _ h]
  | step i hrun hmove ih =>
      rw [hstep i _ _ hrun.reachable hmove, ih]
      simp [or_and_right, exists_or]

/-- Nobody can move. -/
def Stuck (S : System σ ι) (s : σ) : Prop := ∀ i s', ¬ S.step i s s'

/-- **Bounded runs.**  If every step from a reachable state lowers a measure, no interleaving takes
more steps than the measure of the state it started in. -/
theorem Trace.length_le_measure {μ : σ → ℕ} {tr : List (ι × σ)} (h : Trace S tr s)
    (hstep : ∀ i s s', Reachable S s → S.step i s s' → μ s' < μ s) :
    ∃ s₀, S.init s₀ ∧ tr.length + μ s ≤ μ s₀ := by
  induction h with
  | init h => exact ⟨_, h, by simp⟩
  | step i hrun hmove ih =>
      rcases ih with ⟨s₀, h₀, hle⟩
      have hlt := hstep _ _ _ hrun.reachable hmove
      refine ⟨s₀, h₀, ?_⟩
      rw [List.length_append, List.length_singleton]
      omega

end

/-- Sums over threads that differ at one of them. -/
lemma sum_of_ne {τ M : Type} [Fintype τ] [DecidableEq τ] [AddCommMonoid M] {f g : τ → M} (t : τ)
    (h : ∀ u, u ≠ t → f u = g u) : ∑ u, f u + g t = ∑ u, g u + f t := by
  have hrest : ∀ u ∈ Finset.univ.erase t, f u = g u := fun u hu => h u (Finset.ne_of_mem_erase hu)
  rw [← Finset.add_sum_erase _ f (Finset.mem_univ t),
    ← Finset.add_sum_erase _ g (Finset.mem_univ t), Finset.sum_congr rfl hrest]
  ac_rfl

/-- A sum over threads of which one has moved. -/
lemma sum_moved {τ α M : Type} [Fintype τ] [DecidableEq τ] [AddCommMonoid M] (f : α → M)
    (pc : τ → α) (t : τ) (new : α) :
    ∑ u, f (Function.update pc t new u) + f (pc t) = ∑ u, f (pc u) + f new := by
  have hsum := sum_of_ne (f := fun u => f (Function.update pc t new u)) (g := fun u => f (pc u)) t
    fun u hu => by rw [Function.update_of_ne hu]
  simpa using hsum

/-! ## Condition variables -/

section

variable {τ σ : Type} [DecidableEq τ] {asleep : σ → Prop} {wake : σ → σ} {f f' : τ → σ} {t : τ}

/-- `pthread_cond_signal`: one waiter wakes, whichever it is, and nothing happens if nobody
waits. -/
def Signal (asleep : σ → Prop) (wake : σ → σ) (f f' : τ → σ) : Prop :=
  ((∀ t, ¬ asleep (f t)) ∧ f' = f) ∨ ∃ t, asleep (f t) ∧ f' = Function.update f t (wake (f t))

/-- `pthread_cond_broadcast`. -/
def broadcast (asleep : σ → Prop) [DecidablePred asleep] (wake : σ → σ) (f : τ → σ) : τ → σ :=
  fun t => if asleep (f t) then wake (f t) else f t

/-- A signal changes a thread only by waking it. -/
lemma Signal.apply (h : Signal asleep wake f f') (t : τ) :
    f' t = f t ∨ (asleep (f t) ∧ f' t = wake (f t)) := by
  rcases h with ⟨_, rfl⟩ | ⟨u, hu, rfl⟩
  · exact Or.inl rfl
  · by_cases htu : t = u
    · subst htu
      exact Or.inr ⟨hu, Function.update_self _ _ _⟩
    · exact Or.inl (Function.update_of_ne htu _ _)

/-- If anybody waits, a signal wakes somebody. -/
lemma Signal.wakes (h : Signal asleep wake f f') (ht : asleep (f t)) :
    ∃ u, asleep (f u) ∧ f' u = wake (f u) := by
  rcases h with ⟨hnone, _⟩ | ⟨u, hu, rfl⟩
  · exact absurd ht (hnone t)
  · exact ⟨u, hu, Function.update_self _ _ _⟩

/-- Any of the waiters may be the one that wakes. -/
lemma signal_of_waits (t : τ) (h : asleep (f t)) :
    Signal asleep wake f (Function.update f t (wake (f t))) := Or.inr ⟨t, h, rfl⟩

lemma signal_of_none (h : ∀ t, ¬ asleep (f t)) : Signal asleep wake f f := Or.inl ⟨h, rfl⟩

/-- A signal is always possible. -/
lemma exists_signal (asleep : σ → Prop) (wake : σ → σ) (f : τ → σ) :
    ∃ f', Signal asleep wake f f' := by
  by_cases h : ∃ t, asleep (f t)
  · rcases h with ⟨t, ht⟩
    exact ⟨_, signal_of_waits t ht⟩
  · exact ⟨f, signal_of_none fun t ht => h ⟨t, ht⟩⟩

end

end CExercises
