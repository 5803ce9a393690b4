import CExercises.BoundedQueue.Def
import Mathlib.Algebra.BigOperators.Group.Finset.Basic
import Mathlib.Data.Fintype.Basic
import Mathlib.Algebra.Order.Group.Multiset

/-!
# No item is lost, duplicated or reordered

The ring is read off as a list, `ring q`: the `count` entries from `head` on.  `bq_push` appends to
it and `bq_pop` takes its first element off, whatever the indices have wrapped to, so the values
pushed are at all times the values popped followed by the ring.

With a single producer there is more to say.  `Account` keeps track of how far it has come: until it
closes the queue the values pushed and the calls still to be made are together its program, and a
consumer that has returned did so after the close, on an empty ring.
-/

namespace CExercises.BoundedQueue

/-- The entries of the ring, oldest first. -/
def ring (q : BQueue) : List ℤ :=
  (List.range q.count).map fun k => q.data.cells (((q.head + k) % QCAP : ℕ) : ℤ)

/-- The indices are in step with each other and inside the array. -/
structure RingOk (q : BQueue) : Prop where
  bounded : q.count ≤ QCAP
  head_lt : q.head < QCAP
  tail_eq : q.tail = (q.head + q.count) % QCAP
  covers : q.data.Covers 0 (QCAP - 1)

lemma qcap_eq : QCAP = 8 := rfl

/-! ## The critical sections -/

section

variable {q q' : BQueue} {val : ℤ} {size : ℕ}

lemma bqPush_full (h : q.count = QCAP) : bqPush q val = .ok .wait := by
  simp [bqPush, h]

/-- **`bq_push`** on a queue that is not full appends to the ring. -/
lemma RingOk.push (hok : RingOk q) (h : q.count ≠ QCAP) (val : ℤ) :
    ∃ q', bqPush q val = .ok (.ret q' (q.count + 1)) ∧ RingOk q' ∧ ring q' = ring q ++ [val]
      ∧ q'.closed = q.closed ∧ q'.count = q.count + 1 := by
  rcases hok with ⟨hbound, hhead, htail, hcov⟩
  have htail_lt : q.tail < QCAP := by
    rw [htail]
    exact Nat.mod_lt _ (by decide)
  have hstore : q.data.store q.tail val
      = .ok (q.data.withCells (Function.update q.data.cells q.tail val)) :=
    hcov.store (by omega) (by omega)
  refine ⟨{ q with
    data := q.data.withCells (Function.update q.data.cells q.tail val),
    tail := (q.tail + 1) % QCAP,
    count := q.count + 1 }, ?_, ⟨?_, hhead, ?_, hcov.withCells _⟩, ?_, rfl, rfl⟩
  · simp only [bqPush, h, if_false, hstore, ok_bind]
    rfl
  · show q.count + 1 ≤ QCAP
    omega
  · show (q.tail + 1) % QCAP = (q.head + (q.count + 1)) % QCAP
    rw [htail]
    simp only [qcap_eq]
    omega
  · -- the cell written is the one just past the ring
    simp only [ring, List.range_succ, List.map_append, List.map_cons, List.map_nil,
      Block.withCells_cells]
    refine congrArg₂ _ (List.map_congr_left fun k hk => ?_) ?_
    · have hk' := List.mem_range.mp hk
      refine Function.update_of_ne ?_ _ _
      rw [htail]
      simp only [qcap_eq] at *
      omega
    · rw [htail, Function.update_self]

/-- A push sleeps only when the queue is full. -/
lemma RingOk.push_wait (hok : RingOk q) (h : bqPush q val = .ok .wait) : q.count = QCAP := by
  by_contra hne
  rcases hok.push hne val with ⟨q₁, hrun, _⟩
  rw [hrun] at h
  cases h

lemma RingOk.push_ret (hok : RingOk q) (h : bqPush q val = .ok (.ret q' size)) :
    RingOk q' ∧ ring q' = ring q ++ [val] ∧ q'.closed = q.closed ∧ q'.count = q.count + 1 := by
  have hne : q.count ≠ QCAP := by
    intro hfull
    rw [bqPush_full hfull] at h
    cases h
  rcases hok.push hne val with ⟨q₁, hrun, hrest⟩
  rw [hrun] at h
  cases h
  exact hrest

lemma bqPop_open (h : q.count = 0) (hopen : q.closed = false) : bqPop q = .ok .wait := by
  simp [bqPop, h, hopen]

lemma bqPop_closed (h : q.count = 0) (hclosed : q.closed = true) :
    bqPop q = .ok (.ret q none) := by
  simp [bqPop, h, hclosed]

/-- **`bq_pop`** on a queue that is not empty takes the first entry off the ring. -/
lemma RingOk.pop (hok : RingOk q) (h : q.count ≠ 0) :
    ∃ q' val, bqPop q = .ok (.ret q' (some val)) ∧ RingOk q' ∧ ring q = val :: ring q'
      ∧ q'.closed = q.closed ∧ q'.count + 1 = q.count := by
  rcases hok with ⟨hbound, hhead, htail, hcov⟩
  have hload : q.data.load q.head = .ok (q.data.cells q.head) := hcov.load (by omega) (by omega)
  refine ⟨{ q with head := (q.head + 1) % QCAP, count := q.count - 1 }, q.data.cells q.head, ?_,
    ⟨?_, ?_, ?_, hcov⟩, ?_, rfl, ?_⟩
  · simp only [bqPop, h, false_and, if_false, hload, ok_bind]
    rfl
  · show q.count - 1 ≤ QCAP
    omega
  · exact Nat.mod_lt _ (by decide : 0 < QCAP)
  · show q.tail = ((q.head + 1) % QCAP + (q.count - 1)) % QCAP
    rw [htail]
    simp only [qcap_eq]
    omega
  · have hcount : q.count = (q.count - 1) + 1 := by omega
    unfold ring
    rw [hcount, List.range_succ_eq_map, List.map_cons, List.map_map]
    refine congrArg₂ _ ?_ (List.map_congr_left fun k _ => ?_)
    · rw [Nat.add_zero, Nat.mod_eq_of_lt hhead]
    · show q.data.cells _ = q.data.cells _
      congr 2
      simp only [qcap_eq]
      omega
  · show q.count - 1 + 1 = q.count
    omega

/-- **The three ways `bq_pop` can go.** -/
lemma RingOk.pop_cases (hok : RingOk q) :
    (q.count = 0 ∧ q.closed = false ∧ bqPop q = .ok .wait)
      ∨ (q.count = 0 ∧ q.closed = true ∧ bqPop q = .ok (.ret q none))
      ∨ ∃ q' val, bqPop q = .ok (.ret q' (some val)) ∧ RingOk q' ∧ ring q = val :: ring q'
          ∧ q'.closed = q.closed ∧ q'.count + 1 = q.count := by
  by_cases hzero : q.count = 0
  · cases hclosed : q.closed with
    | false => exact Or.inl ⟨hzero, rfl, bqPop_open hzero hclosed⟩
    | true => exact Or.inr (Or.inl ⟨hzero, rfl, bqPop_closed hzero hclosed⟩)
  · exact Or.inr (Or.inr (hok.pop hzero))

lemma RingOk.pop_wait (hok : RingOk q) (h : bqPop q = .ok .wait) :
    q.count = 0 ∧ q.closed = false := by
  rcases hok.pop_cases with ⟨hzero, hopen, _⟩ | ⟨_, _, hrun⟩ | ⟨_, _, hrun, _⟩
  · exact ⟨hzero, hopen⟩
  · rw [hrun] at h
    cases h
  · rw [hrun] at h
    cases h

lemma RingOk.pop_none (hok : RingOk q) (h : bqPop q = .ok (.ret q' none)) :
    q' = q ∧ q.count = 0 ∧ q.closed = true := by
  rcases hok.pop_cases with ⟨_, _, hrun⟩ | ⟨hzero, hclosed, hrun⟩ | ⟨_, _, hrun, _⟩
  · rw [hrun] at h
    cases h
  · rw [hrun] at h
    cases h
    exact ⟨rfl, hzero, hclosed⟩
  · rw [hrun] at h
    cases h

lemma RingOk.pop_some (hok : RingOk q) (h : bqPop q = .ok (.ret q' (some val))) :
    RingOk q' ∧ ring q = val :: ring q' ∧ q'.closed = q.closed ∧ q'.count + 1 = q.count := by
  rcases hok.pop_cases with ⟨_, _, hrun⟩ | ⟨_, _, hrun⟩ | ⟨_, _, hrun, hrest⟩
  · rw [hrun] at h
    cases h
  · rw [hrun] at h
    cases h
  · rw [hrun] at h
    cases h
    exact hrest

lemma ringOk_empty (data : ℤ → ℤ) : RingOk (emptyQueue data) :=
  ⟨Nat.zero_le _, (by decide : 0 < QCAP), rfl, ⟨le_refl _, le_refl _⟩⟩

lemma RingOk.close (hok : RingOk q) : RingOk (bqClose q) := ⟨hok.1, hok.2, hok.3, hok.4⟩

lemma ring_eq_nil (h : q.count = 0) : ring q = [] := by
  rw [ring, h]
  rfl

end

/-! ## Any number of producers and consumers -/

section

variable {P C : Type} [DecidableEq P] [DecidableEq C] {spurious : Bool} {prog : P → List Call}
  {s s' : State P C}

lemma reachable_thread {t : P ⊕ C} (h : Reachable (system spurious prog) s)
    (hstep : Step spurious t s s') : Reachable (system spurious prog) s' :=
  h.step t hstep

/-- The values pushed are the values popped followed by the ring. -/
structure Conserved (s : State P C) : Prop where
  ok : RingOk s.q
  pushed : s.pushed = s.popped ++ ring s.q

lemma conserved_step {t : P ⊕ C} (h : Conserved s) (hstep : Step spurious t s s') :
    Conserved s' := by
  rcases h with ⟨hok, hpushed⟩
  cases hstep with
  | pushWait hpc hq => exact ⟨hok, hpushed⟩
  | push hpc hq hsig =>
      rcases hok.push_ret hq with ⟨hok', hring, _⟩
      exact ⟨hok', by rw [hring, hpushed, List.append_assoc]⟩
  | close hpc => exact ⟨hok.close, hpushed⟩
  | popWait hpc hq => exact ⟨hok, hpushed⟩
  | popNone hpc hq =>
      rcases hok.pop_none hq with ⟨rfl, _⟩
      exact ⟨hok, hpushed⟩
  | pop hpc hq hsig =>
      rcases hok.pop_some hq with ⟨hok', hring, _⟩
      exact ⟨hok', by rw [hpushed, hring, List.append_assoc]; rfl⟩
  | wakeProducer _ hpc => exact ⟨hok, hpushed⟩
  | wakeConsumer _ hpc => exact ⟨hok, hpushed⟩

theorem conserved_of_reachable (h : Reachable (system spurious prog) s) : Conserved s := by
  refine h.invariant ?_ fun _ _ _ hinv hstep => conserved_step hinv hstep
  rintro s ⟨data, rfl⟩
  exact ⟨ringOk_empty data, rfl⟩

/-- A consumer returns only from a queue that is closed and empty. -/
lemma returns_closed {c : C} (hok : RingOk s.q) (hstep : Step spurious (.inr c) s s')
    (hpc' : (s'.cons c).pc = .done) : s.q.closed = true ∧ ring s.q = [] := by
  cases hstep with
  | popWait _ _ => simp at hpc'
  | popNone _ hq =>
      rcases hok.pop_none hq with ⟨_, hzero, hclosed⟩
      exact ⟨hclosed, ring_eq_nil hzero⟩
  | pop _ _ _ => simp at hpc'
  | wakeConsumer _ _ => simp [ConsumerState.wake] at hpc'

end

/-! ## One producer -/

lemma producer_split : ∀ (items xs : List ℤ) (rest : List Call),
    producer items = xs.map Call.push ++ .close :: rest → xs = items ∧ rest = [] := by
  intro items
  induction items with
  | nil =>
      intro xs rest h
      cases xs with
      | nil => simpa [producer, eq_comm] using h
      | cons x xs => simp [producer] at h
  | cons i items ih =>
      intro xs rest h
      cases xs with
      | nil => simp [producer] at h
      | cons x xs =>
          simp only [producer, List.map_cons, List.cons_append, List.cons.injEq,
            Call.push.injEq] at h
          rcases ih xs rest h.2 with ⟨hxs, hrest⟩
          exact ⟨by rw [hxs, h.1], hrest⟩

section

variable {C : Type} {spurious : Bool} {items : List ℤ} {s s' : State Unit C}

/-- How far the single producer has come, and what a consumer that has returned has seen. -/
structure Account (items : List ℤ) (s : State Unit C) : Prop where
  still_open : s.q.closed = false → producer items = s.pushed.map Call.push ++ (s.prod ()).todo
  closed : s.q.closed = true → (s.prod ()).todo = [] ∧ s.pushed = items
  returned : ∀ c, (s.cons c).pc = .done → s.q.closed = true ∧ s.q.count = 0

/-- A producer with calls to make has not closed the queue. -/
lemma Account.open_of_todo (h : Account items s) (htodo : (s.prod ()).todo ≠ []) :
    s.q.closed = false := by
  rw [Bool.eq_false_iff]
  intro hclosed
  exact htodo (h.closed hclosed).1

/-- Everything the consumers got, together. -/
def consumed [Fintype C] (cons : C → ConsumerState) : Multiset ℤ :=
  ∑ c, ((cons c).got : Multiset ℤ)

lemma consumed_congr [Fintype C] {cons cons' : C → ConsumerState}
    (h : ∀ c, (cons' c).got = (cons c).got) : consumed cons' = consumed cons :=
  Finset.sum_congr rfl fun c _ => by rw [h c]

variable [DecidableEq C]

/-- Waking somebody makes nobody return. -/
lemma done_of_signal {cons cons' : C → ConsumerState} {c : C}
    (h : Signal ConsumerState.Waits ConsumerState.wake cons cons') (hc : (cons' c).pc = .done) :
    (cons c).pc = .done := by
  rcases h.apply c with heq | ⟨_, heq⟩
  · rw [heq] at hc
    exact hc
  · rw [heq] at hc
    cases hc

lemma got_of_signal {cons cons' : C → ConsumerState} (c : C)
    (h : Signal ConsumerState.Waits ConsumerState.wake cons cons') :
    (cons' c).got = (cons c).got := by
  rcases h.apply c with heq | ⟨_, heq⟩
  · rw [heq]
  · rw [heq]
    rfl

lemma todo_of_signal {prod prod' : Unit → ProducerState} (u : Unit)
    (h : Signal ProducerState.Waits ProducerState.wake prod prod') :
    (prod' u).todo = (prod u).todo := by
  rcases h.apply u with heq | ⟨_, heq⟩
  · rw [heq]
  · rw [heq]
    rfl

/-- A consumer that changes its place in the loop without returning. -/
lemma returned_update {cons : C → ConsumerState} {c c' : C} {x : ConsumerState} (hx : x.pc ≠ .done)
    (h : (Function.update cons c x c').pc = .done) : (cons c').pc = .done := by
  by_cases hc : c' = c
  · subst hc
    rw [Function.update_self] at h
    exact absurd h hx
  · rwa [Function.update_of_ne hc] at h

lemma account_step {t : Unit ⊕ C} (hcons : Conserved s) (h : Account items s)
    (hstep : Step spurious t s s') : Account items s' := by
  cases hstep with
  | pushWait hpc hq =>
      refine ⟨fun ho => ?_, fun hc => ?_, h.returned⟩
      · have := h.still_open ho
        rw [hpc] at this
        simpa using this
      · have := (h.closed hc).1
        rw [hpc] at this
        cases this
  | push hpc hq hsig =>
      have hopen := h.open_of_todo (by rw [hpc]; simp)
      rcases hcons.ok.push_ret hq with ⟨_, _, hclosed, _⟩
      refine ⟨fun _ => ?_, fun hc => ?_, fun c hc => ?_⟩
      · have := h.still_open hopen
        rw [hpc] at this
        simpa using this
      · simp [hclosed, hopen] at hc
      · have := (h.returned c (done_of_signal hsig hc)).1
        rw [hopen] at this
        cases this
  | close hpc =>
      have hopen := h.open_of_todo (by rw [hpc]; simp)
      have hprog := h.still_open hopen
      rw [hpc] at hprog
      rcases producer_split _ _ _ hprog with ⟨hpushed, hrest⟩
      refine ⟨fun ho => ?_, fun _ => ⟨by simp [hrest], hpushed⟩, fun c hc => ?_⟩
      · cases ho
      · simp only [broadcast] at hc
        split_ifs at hc
        · cases hc
        · have := (h.returned c hc).1
          rw [hopen] at this
          cases this
  | popWait hpc hq =>
      exact ⟨h.still_open, h.closed, fun c hc => h.returned c (returned_update (by simp) hc)⟩
  | popNone hpc hq =>
      rcases hcons.ok.pop_none hq with ⟨rfl, hzero, hclosed⟩
      exact ⟨h.still_open, h.closed, fun c hc => ⟨hclosed, hzero⟩⟩
  | pop hpc hq hsig =>
      rcases hcons.ok.pop_some hq with ⟨_, _, hclosed, hcount⟩
      refine ⟨fun ho => ?_, fun hc => ?_, fun c hc => ?_⟩
      · rw [todo_of_signal () hsig]
        exact h.still_open (by rw [← hclosed]; exact ho)
      · rw [todo_of_signal () hsig]
        exact h.closed (by rw [← hclosed]; exact hc)
      · have := (h.returned c (returned_update (by simp) hc)).2
        omega
  | wakeProducer _ hpc =>
      refine ⟨fun ho => ?_, fun hc => ?_, h.returned⟩
      · simpa [ProducerState.wake] using h.still_open ho
      · simpa [ProducerState.wake] using h.closed hc
  | wakeConsumer _ hpc =>
      exact ⟨h.still_open, h.closed,
        fun c hc => h.returned c (returned_update (by simp [ConsumerState.wake]) hc)⟩

theorem account_of_reachable
    (h : Reachable (system spurious fun _ : Unit => producer items) s) : Account items s := by
  refine h.invariant_with (fun _ => conserved_of_reachable) ?_
    fun _ _ _ hcons hinv hstep => account_step hcons hinv hstep
  rintro s ⟨data, rfl⟩
  refine ⟨fun _ => rfl, fun hc => ?_, fun c hc => ?_⟩
  · cases hc
  · cases hc

/-! ## Who got what -/

variable [Fintype C]

lemma consumed_update (cons : C → ConsumerState) (c : C) (pc : ConsumerPc) (xs : List ℤ) :
    consumed (Function.update cons c ⟨pc, (cons c).got ++ xs⟩) = consumed cons + xs := by
  have hrest : ∀ d ∈ Finset.univ.erase c,
      ((Function.update cons c ⟨pc, (cons c).got ++ xs⟩ d).got : Multiset ℤ) = (cons d).got := by
    intro d hd
    rw [Function.update_of_ne (Finset.ne_of_mem_erase hd)]
  rw [consumed, consumed, ← Finset.add_sum_erase _ _ (Finset.mem_univ c),
    ← Finset.add_sum_erase _ (fun d => ((cons d).got : Multiset ℤ)) (Finset.mem_univ c),
    Finset.sum_congr rfl hrest, Function.update_self, ← Multiset.coe_add]
  exact add_right_comm _ _ _

lemma consumed_setPc (cons : C → ConsumerState) {c : C} {got : List ℤ} (pc : ConsumerPc)
    (h : (cons c).got = got) : consumed (Function.update cons c ⟨pc, got⟩) = consumed cons := by
  have := consumed_update cons c pc []
  rwa [List.append_nil, h, Multiset.coe_nil, add_zero] at this

lemma consumed_step {t : Unit ⊕ C} (h : (s.popped : Multiset ℤ) = consumed s.cons)
    (hstep : Step spurious t s s') : (s'.popped : Multiset ℤ) = consumed s'.cons := by
  cases hstep with
  | pushWait hpc hq => exact h
  | push hpc hq hsig =>
      rw [h]
      exact (consumed_congr fun c => got_of_signal c hsig).symm
  | close hpc =>
      rw [h]
      refine (consumed_congr fun c => ?_).symm
      simp only [broadcast]
      split_ifs
      · rfl
      · rfl
  | popWait hpc hq => rw [h, consumed_setPc _ _ (by rw [hpc])]
  | popNone hpc hq => rw [h, consumed_setPc _ _ (by rw [hpc])]
  | @pop _ c got _ val _ hpc hq hsig =>
      have hupd := consumed_update s.cons c .running [val]
      rw [hpc] at hupd
      rw [hupd, ← h, Multiset.coe_add]
  | wakeProducer _ hpc => exact h
  | wakeConsumer _ hpc =>
      rw [h]
      exact (consumed_setPc s.cons .running rfl).symm

theorem consumed_of_reachable {prog : Unit → List Call} (h : Reachable (system spurious prog) s) :
    (s.popped : Multiset ℤ) = consumed s.cons := by
  refine h.invariant (I := fun s => (s.popped : Multiset ℤ) = consumed s.cons) ?_
    fun _ _ _ hinv hstep => consumed_step hinv hstep
  rintro s ⟨data, rfl⟩
  simp [consumed]

end

/-- **The bounded queue conserves its items.**  With any number of producers and consumers the
values pushed are the values popped and then the ring, and `bq_pop` gives up only on a closed and
empty queue; hence with one producer every item is consumed exactly once when all consumers have
returned. -/
theorem bq_conserves_items :
    (∀ (P C : Type) [DecidableEq P] [DecidableEq C] (spurious : Bool) (prog : P → List Call)
        (s : State P C), Reachable (system spurious prog) s →
      s.q.count ≤ QCAP ∧ s.q.tail = (s.q.head + s.q.count) % QCAP
        ∧ s.pushed = s.popped ++ ring s.q
        ∧ ∀ c s', Step spurious (.inr c) s s' → (s'.cons c).pc = .done →
            s.q.closed = true ∧ ring s.q = [])
    ∧ ∀ (C : Type) [DecidableEq C] [Fintype C] [Nonempty C] (spurious : Bool) (items : List ℤ)
        (s : State Unit C), Reachable (system spurious fun _ => producer items) s →
      (∀ c, (s.cons c).pc = .done) → s.popped = items ∧ consumed s.cons = items := by
  constructor
  · intro P C _ _ spurious prog s h
    have hinv := conserved_of_reachable h
    exact ⟨hinv.ok.bounded, hinv.ok.tail_eq, hinv.pushed, fun c s' => returns_closed hinv.ok⟩
  · intro C _ _ hne spurious items s h hall
    have hinv := conserved_of_reachable h
    have hacc := account_of_reachable h
    rcases hacc.returned (Classical.arbitrary C) (hall _) with ⟨hclosed, hzero⟩
    have hpopped : s.popped = items := by
      have hpushed := hinv.pushed
      rw [ring_eq_nil hzero, List.append_nil, (hacc.closed hclosed).2] at hpushed
      exact hpushed.symm
    exact ⟨hpopped, by rw [← consumed_of_reachable h, hpopped]⟩

/-- Two items and two consumers, the first of which has to go back to sleep because the second takes
the item it was woken for. -/
theorem bq_conserves_items_contended :
    ∃ s : State Unit Bool, Reachable (system false fun _ => producer [7, 8]) s
      ∧ s.cons false = ⟨.done, [7]⟩ ∧ s.cons true = ⟨.done, [8]⟩
      ∧ s.popped = [7, 8] ∧ consumed s.cons = ([7, 8] : List ℤ) := by
  have h₀ : Reachable (system false fun _ : Unit => producer [7, 8])
      (⟨emptyQueue fun _ => 0, fun _ => ⟨producer [7, 8], false⟩, fun _ : Bool => ⟨.running, []⟩, [],
        []⟩) := Reachable.init ⟨fun _ => 0, rfl⟩
  have h₁ := reachable_thread h₀ (Step.popWait (c := true) rfl rfl)
  have h₂ := reachable_thread h₁ (Step.push (p := ()) rfl rfl (signal_of_waits true rfl))
  have h₃ := reachable_thread h₂
    (Step.pop (c := false) rfl rfl (signal_of_none fun _ hw => Bool.noConfusion hw))
  have h₄ := reachable_thread h₃ (Step.popWait (c := true) rfl rfl)
  have h₅ := reachable_thread h₄ (Step.popWait (c := false) rfl rfl)
  have h₆ := reachable_thread h₅ (Step.push (p := ()) rfl rfl (signal_of_waits true rfl))
  have h₇ := reachable_thread h₆ (Step.close (p := ()) rfl)
  have h₈ := reachable_thread h₇
    (Step.pop (c := true) rfl rfl (signal_of_none fun _ hw => Bool.noConfusion hw))
  have h₉ := reachable_thread h₈ (Step.popNone (c := true) rfl rfl)
  have h₁₀ := reachable_thread h₉ (Step.popNone (c := false) rfl rfl)
  exact ⟨_, h₁₀, rfl, rfl, bq_conserves_items.2 Bool false [7, 8] _ h₁₀ fun c => by cases c <;> rfl⟩

end CExercises.BoundedQueue
