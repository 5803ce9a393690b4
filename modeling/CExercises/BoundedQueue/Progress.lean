import CExercises.BoundedQueue.Safety

/-!
# No wakeup is lost

`bq_push` and `bq_pop` signal, that is, they wake one waiter, and only `bq_close` broadcasts.  With
one producer this is enough, and the reason is three facts that hold in every state.

* The producer sleeps only while the queue is full.
* If the queue holds anything and a consumer sleeps, some consumer is awake.  A push wakes one; that
  one may find its item gone and go back to sleep, but then the queue is empty again.
* No consumer sleeps on a closed queue.

None of this needs spurious wakeups, and none of it is disturbed by them.
-/

namespace CExercises.BoundedQueue

section

variable {P C : Type}

/-- A thread that has returned. -/
def Finished (s : State P C) : P ⊕ C → Prop
  | .inl p => (s.prod p).todo = []
  | .inr c => (s.cons c).pc = .done

/-- A thread blocked in `pthread_cond_wait`. -/
def Asleep (s : State P C) : P ⊕ C → Prop
  | .inl p => (s.prod p).Waits
  | .inr c => (s.cons c).Waits

lemma not_waits_broadcast (cons : C → ConsumerState) (c : C) :
    ¬ (broadcast ConsumerState.Waits ConsumerState.wake cons c).Waits := by
  simp only [broadcast]
  split_ifs with h
  · intro hw
    cases hw
  · exact h

variable [DecidableEq P] [DecidableEq C] {spurious : Bool} {s : State P C}

/-- A thread that is neither finished nor asleep has a step to take. -/
lemma exists_step (hok : RingOk s.q) {t : P ⊕ C} (hfin : ¬ Finished s t) (hawake : ¬ Asleep s t) :
    ∃ s', Step spurious t s s' := by
  cases t with
  | inl p =>
      have hasleep : (s.prod p).asleep = false := by
        simpa [Asleep, ProducerState.Waits] using hawake
      cases htodo : (s.prod p).todo with
      | nil => exact absurd htodo hfin
      | cons call rest =>
          have hpc : s.prod p = ⟨call :: rest, false⟩ := by
            rw [← htodo, ← hasleep]
          cases call with
          | push val =>
              by_cases hfull : s.q.count = QCAP
              · exact ⟨_, Step.pushWait hpc (bqPush_full hfull)⟩
              · rcases hok.push hfull val with ⟨q, hq, _⟩
                rcases exists_signal ConsumerState.Waits ConsumerState.wake s.cons with ⟨cons, hsig⟩
                exact ⟨_, Step.push hpc hq hsig⟩
          | close => exact ⟨_, Step.close hpc⟩
  | inr c =>
      have hrun : (s.cons c).pc = .running := by
        cases hpc : (s.cons c).pc with
        | running => rfl
        | asleep => exact absurd hpc hawake
        | done => exact absurd hpc hfin
      have hpc : s.cons c = ⟨.running, (s.cons c).got⟩ := by
        rw [← hrun]
      by_cases hzero : s.q.count = 0
      · cases hclosed : s.q.closed with
        | false => exact ⟨_, Step.popWait hpc (bqPop_open hzero hclosed)⟩
        | true => exact ⟨_, Step.popNone hpc (bqPop_closed hzero hclosed)⟩
      · rcases hok.pop hzero with ⟨q, val, hq, _⟩
        rcases exists_signal ProducerState.Waits ProducerState.wake s.prod with ⟨prod, hsig⟩
        exact ⟨_, Step.pop hpc hq hsig⟩

end

section

variable {C : Type} {spurious : Bool} {items : List ℤ} {s s' : State Unit C}

/-- The three facts. -/
structure Live (s : State Unit C) : Prop where
  producer_full : (s.prod ()).Waits → s.q.count = QCAP ∧ (s.prod ()).todo ≠ []
  some_awake : s.q.count ≠ 0 → ∀ c, (s.cons c).Waits → ∃ d, (s.cons d).pc = .running
  closed_awake : s.q.closed = true → ∀ c, ¬ (s.cons c).Waits

/-- A producer that has made all its calls has closed the queue. -/
lemma Account.closed_of_finished (h : Account items s) (htodo : (s.prod ()).todo = []) :
    s.q.closed = true := by
  cases hcl : s.q.closed with
  | true => rfl
  | false =>
      have hprog := h.still_open hcl
      rw [htodo, List.append_nil] at hprog
      have hmem : Call.close ∈ s.pushed.map Call.push := by
        rw [← hprog]
        simp [producer]
      simp at hmem

/-- While the queue is open no consumer has returned. -/
lemma Account.not_done (h : Account items s) (hopen : s.q.closed = false) (c : C) :
    (s.cons c).pc ≠ .done := by
  intro hc
  have hclosed := (h.returned c hc).1
  rw [hopen] at hclosed
  cases hclosed

/-- Somebody is awake to serve a producer that sleeps. -/
lemma Live.exists_running [Nonempty C] (h : Live s) (hdone : ∀ c, (s.cons c).pc ≠ .done)
    (hsleep : (s.prod ()).Waits) : ∃ d, (s.cons d).pc = .running := by
  have hfull := (h.producer_full hsleep).1
  cases hpc : (s.cons (Classical.arbitrary C)).pc with
  | running => exact ⟨_, hpc⟩
  | asleep => exact h.some_awake (by rw [hfull]; decide) _ hpc
  | done => exact absurd hpc (hdone _)

variable [DecidableEq C]

/-- Nobody falls asleep by a signal. -/
lemma waits_of_signal {cons cons' : C → ConsumerState} {c : C}
    (h : Signal ConsumerState.Waits ConsumerState.wake cons cons') (hc : (cons' c).Waits) :
    (cons c).Waits := by
  rcases h.apply c with heq | ⟨_, heq⟩
  · rwa [heq] at hc
  · rw [heq] at hc
    cases hc

/-- The only producer is the one a signal wakes. -/
lemma not_waits_of_signal {prod prod' : Unit → ProducerState}
    (h : Signal ProducerState.Waits ProducerState.wake prod prod') : ¬ (prod' ()).Waits := by
  rcases h with ⟨hnone, rfl⟩ | ⟨u, _, rfl⟩
  · exact hnone ()
  · rw [Function.update_self]
    intro hw
    cases hw

/-- A consumer that has just moved and is awake. -/
lemma waits_update {cons : C → ConsumerState} {c d : C} {x : ConsumerState} (hx : ¬ x.Waits)
    (h : (Function.update cons c x d).Waits) : (cons d).Waits := by
  by_cases hd : d = c
  · subst hd
    rw [Function.update_self] at h
    exact absurd h hx
  · rwa [Function.update_of_ne hd] at h

lemma live_step {t : Unit ⊕ C} (hok : RingOk s.q) (h : Live s) (hstep : Step spurious t s s') :
    Live s' := by
  rcases h with ⟨hfull, hsome, hclosed⟩
  cases hstep with
  | pushWait hpc hq =>
      refine ⟨fun _ => ⟨hok.push_wait hq, ?_⟩, hsome, hclosed⟩
      simp
  | push hpc hq hsig =>
      rcases hok.push_ret hq with ⟨_, _, hcl, _⟩
      refine ⟨fun hw => ?_, fun _ c hc => ?_, fun ht c hc => ?_⟩
      · simp [ProducerState.Waits] at hw
      · -- somebody slept, so the signal has woken somebody
        rcases hsig.wakes (waits_of_signal hsig hc) with ⟨d, _, hd⟩
        exact ⟨d, congrArg ConsumerState.pc hd⟩
      · exact hclosed (by rw [← hcl]; exact ht) c (waits_of_signal hsig hc)
  | close hpc =>
      refine ⟨fun hw => ?_, fun _ c hc => ?_, fun _ c => not_waits_broadcast _ c⟩
      · simp [ProducerState.Waits] at hw
      · exact absurd hc (not_waits_broadcast _ c)
  | popWait hpc hq =>
      rcases hok.pop_wait hq with ⟨hzero, hopen⟩
      refine ⟨hfull, fun hne => absurd hzero hne, fun ht => ?_⟩
      rw [hopen] at ht
      cases ht
  | popNone hpc hq =>
      rcases hok.pop_none hq with ⟨rfl, hzero, _⟩
      refine ⟨hfull, fun hne => absurd hzero hne, fun ht c hc => ?_⟩
      exact hclosed ht c (waits_update (by simp [ConsumerState.Waits]) hc)
  | @pop _ c _ _ _ _ hpc hq hsig =>
      rcases hok.pop_some hq with ⟨_, _, hcl, _⟩
      refine ⟨fun hw => absurd hw (not_waits_of_signal hsig), fun _ d _ => ⟨c, by simp⟩,
        fun ht d hd => ?_⟩
      exact hclosed (by rw [← hcl]; exact ht) d (waits_update (by simp [ConsumerState.Waits]) hd)
  | wakeProducer _ hpc =>
      refine ⟨fun hw => ?_, hsome, hclosed⟩
      simp [ProducerState.Waits, ProducerState.wake] at hw
  | @wakeConsumer _ c _ hpc =>
      refine ⟨hfull, fun _ d _ => ⟨c, by simp [ConsumerState.wake]⟩, fun ht d hd => ?_⟩
      exact hclosed ht d (waits_update (by simp [ConsumerState.Waits, ConsumerState.wake]) hd)

theorem live_of_reachable {prog : Unit → List Call} (h : Reachable (system spurious prog) s) :
    Live s := by
  refine h.invariant_with (fun _ => conserved_of_reachable) ?_
    fun _ _ _ hcons hinv hstep => live_step hcons.ok hinv hstep
  rintro s ⟨data, rfl⟩
  refine ⟨fun hw => ?_, fun hne => absurd rfl hne, fun ht => ?_⟩
  · cases hw
  · cases ht

/-- **No deadlock.**  As long as some thread has not finished, one that has not finished is awake,
and it has a step to take. -/
theorem bq_no_deadlock [Nonempty C] (spurious : Bool) (items : List ℤ) (s : State Unit C)
    (h : Reachable (system spurious fun _ => producer items) s) (hunf : ∃ t, ¬ Finished s t) :
    ∃ t, ¬ Finished s t ∧ ¬ Asleep s t ∧ ∃ s', Step spurious t s s' := by
  have hlive := live_of_reachable h
  have hacc := account_of_reachable h
  have hok := (conserved_of_reachable h).ok
  suffices hawake : ∃ t, ¬ Finished s t ∧ ¬ Asleep s t by
    rcases hawake with ⟨t, hfin, haw⟩
    exact ⟨t, hfin, haw, exists_step hok hfin haw⟩
  by_cases htodo : (s.prod ()).todo = []
  · -- the producer has returned, so the queue is closed and the rest are awake
    rcases hunf with ⟨t, ht⟩
    refine ⟨t, ht, ?_⟩
    cases t with
    | inl p => exact absurd htodo ht
    | inr c => exact hlive.closed_awake (hacc.closed_of_finished htodo) c
  · by_cases hsleep : (s.prod ()).Waits
    · -- the producer sleeps on a full queue, so some consumer is awake
      have hnotdone := hacc.not_done (hacc.open_of_todo htodo)
      rcases hlive.exists_running hnotdone hsleep with ⟨d, hd⟩
      refine ⟨.inr d, hnotdone d, fun hw => ?_⟩
      have hw' : (s.cons d).pc = .asleep := hw
      rw [hd] at hw'
      cases hw'
    · exact ⟨.inl (), htodo, hsleep⟩

end

/-- Both consumers have gone to sleep on the empty queue, and the signal of a push has woken one of
them. -/
theorem bq_no_deadlock_asleep :
    ∃ s : State Unit Bool, Reachable (system false fun _ => producer [7]) s
      ∧ s.cons false = ⟨.asleep, []⟩ ∧ s.cons true = ⟨.running, []⟩ ∧ s.q.count = 1
      ∧ (s.prod ()).todo = [.close]
      ∧ ∃ t, ¬ Finished s t ∧ ¬ Asleep s t ∧ ∃ s', Step false t s s' := by
  have h₀ : Reachable (system false fun _ : Unit => producer [7])
      (⟨emptyQueue fun _ => 0, fun _ => ⟨producer [7], false⟩, fun _ : Bool => ⟨.running, []⟩, [],
        []⟩) := Reachable.init ⟨fun _ => 0, rfl⟩
  have h₁ := reachable_thread h₀ (Step.popWait (c := true) rfl rfl)
  have h₂ := reachable_thread h₁ (Step.popWait (c := false) rfl rfl)
  have h₃ := reachable_thread h₂ (Step.push (p := ()) rfl rfl (signal_of_waits true rfl))
  refine ⟨_, h₃, rfl, rfl, rfl, rfl, ?_⟩
  exact bq_no_deadlock false [7] _ h₃ ⟨.inl (), by simp [Finished, producer]⟩

end CExercises.BoundedQueue
