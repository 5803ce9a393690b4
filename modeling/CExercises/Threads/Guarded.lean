import CExercises.Threads.Def
import Mathlib.Algebra.BigOperators.Ring.Finset
import Mathlib.Data.Multiset.Bind

/-!
# What the locks guarantee

`safe_order` is disciplined for the order of its locks, so that it cannot deadlock; taken in
opposite orders by two threads, the same two locks can.

`safe_inc` is made of critical sections.  They serialize, and one at a time they add one each; for
`safe_worker` the same follows because no step of it does anything but add one.
-/

namespace CExercises.Threads

variable {T : Type} [DecidableEq T]

/-! ## Two mutexes -/

lemma safeOrder_disciplined (id : ℤ) : Disciplined ∅ (safeOrder id) := by
  refine ⟨fun k hk => absurd hk (Finset.notMem_empty k), fun k hk => ?_, ?_, ?_, ?_⟩
  · have hka : k = .a := by simpa using hk
    rw [hka]
    exact Nat.zero_lt_one
  · simp
  · simp
  · show ((insert Lock.b (insert Lock.a (∅ : Finset Lock))).erase .b).erase .a = ∅
    decide

/-- **Lock order.**  No two threads are between taking and giving back one of the locks, no run
takes more than five steps a thread, and it ends only when all threads are done: then both locks are
free and every thread has printed its line once. -/
theorem safe_order_completes [Fintype T] (ids : T → ℤ) :
    (∀ s, Reachable (orderSystem ids) s → ∀ l t u, Inside l (s.todo t) → Inside l (s.todo u) →
      t = u)
    ∧ (∀ tr s, Trace (orderSystem ids) tr s → tr.length ≤ 5 * Fintype.card T)
    ∧ ∀ s, Reachable (orderSystem ids) s → Stuck (orderSystem ids) s →
        (∀ t, s.todo t = []) ∧ (∀ l, s.owner l = none)
          ∧ (s.data : Multiset ℤ) = Finset.univ.val.map ids := by
  have hprog : ∀ t, Disciplined ∅ (safeOrder (ids t)) := fun t => safeOrder_disciplined (ids t)
  refine ⟨fun s h l t u => locks_exclude hprog h, fun tr s h => ?_, fun s h hstuck => ?_⟩
  · have hle := lock_trace_length h
    simpa [safeOrder, mul_comm] using hle
  · rcases locks_stuck hprog h hstuck with ⟨hdone, hfree⟩
    refine ⟨hdone, hfree, ?_⟩
    -- a line that has been printed is one that is not to be printed any more
    have hconserved := acts_conserve (φ := fun out : List ℤ => (out : Multiset ℤ))
      (w := fun id => {id}) (fun id out => (Multiset.coe_add out [id]).symm) h
    have hlines : ∀ t, ((safeOrder (ids t)).map (LockOp.weight fun id => ({id} : Multiset ℤ))).sum
        = {ids t} := by
      intro t
      simp [safeOrder, LockOp.weight]
    simp only [LockState.pending, hdone, List.map_nil, List.sum_nil, Finset.sum_const_zero,
      add_zero, hlines, Multiset.coe_nil, zero_add] at hconserved
    rw [hconserved]
    exact Multiset.bind_singleton _ _

/-- What the order is for: one thread that takes the locks one way round and one that takes them the
other way round can each end up waiting for the other. -/
theorem opposite_orders_deadlock :
    ∃ s : LockState Bool Lock ℤ (List ℤ),
      Reachable (lockSystem printLine [] fun t => if t then [.lock .b, .lock .a, .act 1,
        .unlock .a, .unlock .b] else safeOrder 0) s
      ∧ (∀ t s', ¬ LockStep printLine t s s') ∧ ∀ t, s.todo t ≠ [] := by
  have h₀ : Reachable (lockSystem printLine [] fun t : Bool => if t then [.lock .b, .lock .a,
      .act 1, .unlock .a, .unlock .b] else safeOrder 0) _ := .init rfl
  have h₁ := h₀.step false (.lock rfl rfl)
  have h₂ := h₁.step true (.lock rfl rfl)
  refine ⟨_, h₂, ?_, ?_⟩
  · rintro (_ | _) s' (⟨htodo, hfree⟩ | ⟨htodo, _⟩ | ⟨htodo⟩)
    all_goals cases htodo
    all_goals cases hfree
  · rintro (_ | _) hnil <;> cases hnil

/-! ## One counter -/

/-- One increment after another. -/
lemma runSections_increments (log : List (T × List (CountOp T)))
    (hlog : ∀ e ∈ log, e.2 = increment e.1) (c : Counter T) :
    (runSections countExec log c).count = c.count + log.length := by
  induction log generalizing c with
  | nil => simp [runSections]
  | cons e log ih =>
      have hrun : (runSection countExec e.2 c).count = c.count + 1 := by
        rw [hlog e List.mem_cons_self]
        simp [runSection, increment, countExec]
      have hrest := ih (fun e' he' => hlog e' (List.mem_cons_of_mem _ he'))
        (runSection countExec e.2 c)
      rw [runSections, List.foldl_cons, ← runSections, hrest, hrun, List.length_cons]
      omega

lemma mem_sectionsOf {e : T × List (CountOp T)} {log : List (T × List (CountOp T))}
    (he : e ∈ log) : e.2 ∈ sectionsOf e.1 log :=
  List.mem_map.mpr ⟨e, List.mem_filter.mpr ⟨he, by simp⟩, rfl⟩

variable [Fintype T] {initial : ℤ} {iters : T → ℕ}

/-- The counter while the mutex is free: one for every section that has begun. -/
lemma safeInc_count {s : LockState T Unit (CountOp T) (Counter T)}
    (h : Reachable (counterSystem initial fun t => safeInc (iters t) t) s)
    (hfree : s.owner () = none) :
    ∃ began : T → ℕ, s.data.count = initial + ∑ t, (began t : ℤ)
      ∧ ∀ t, s.todo t = (List.replicate (iters t - began t) (increment t)).flatMap (critical ())
        ∧ began t ≤ iters t := by
  rcases sections_serialize h hfree with ⟨log, hdata, hlog⟩
  have hmem : ∀ e ∈ log, e.2 = increment e.1 := by
    intro e he
    rcases hlog e.1 with ⟨rest, hrest, _⟩
    have hin : e.2 ∈ List.replicate (iters e.1) (increment e.1) := by
      rw [← hrest]
      exact List.mem_append_left _ (mem_sectionsOf he)
    exact List.eq_of_mem_replicate hin
  refine ⟨fun t => (sectionsOf t log).length, ?_, fun t => ?_⟩
  · rw [hdata, runSections_increments log hmem, length_eq_sum_sectionsOf]
    rw [Nat.cast_sum]
  · rcases hlog t with ⟨rest, hrest, htodo⟩
    have hlen := congrArg List.length hrest
    rw [List.length_append, List.length_replicate] at hlen
    rw [List.append_eq_replicate_iff] at hrest
    rw [htodo, hrest.2.2, show rest.length = iters t - (sectionsOf t log).length by omega]
    exact ⟨rfl, Nat.le.intro hlen⟩

omit [DecidableEq T] [Fintype T] in
lemma length_safeInc (k : ℕ) (t : T) : (safeInc k t).length = 4 * k := by
  simp [safeInc, critical, increment, List.length_flatMap, mul_comm]

/-- **No increment is lost** under the mutex: no run takes more than four steps an iteration, and it
ends only when all threads are done and every iteration has counted. -/
theorem safe_inc_exact (initial : ℤ) (iters : T → ℕ) :
    (∀ tr s, Trace (counterSystem initial fun t => safeInc (iters t) t) tr s →
      tr.length ≤ 4 * ∑ t, iters t)
    ∧ ∀ s, Reachable (counterSystem initial fun t => safeInc (iters t) t) s →
        Stuck (counterSystem initial fun t => safeInc (iters t) t) s →
        (∀ t, s.todo t = []) ∧ s.data.count = initial + ∑ t, (iters t : ℤ) := by
  constructor
  · intro tr s h
    have hle := lock_trace_length h
    simpa only [length_safeInc, ← Finset.mul_sum] using hle
  · intro s h hstuck
    rcases locks_stuck (fun t => disciplined_sections () _) h hstuck with ⟨hdone, hfree⟩
    refine ⟨hdone, ?_⟩
    rcases safeInc_count h (hfree ()) with ⟨began, hcount, hall⟩
    rw [hcount]
    congr 1
    refine Finset.sum_congr rfl fun t _ => ?_
    rcases hall t with ⟨htodo, hle⟩
    rw [hdone t] at htodo
    have hlen := congrArg List.length htodo
    rw [← safeInc, length_safeInc, List.length_nil] at hlen
    have hall' : began t = iters t := by omega
    rw [hall']

/-- **No increment is lost** by the atomic instruction. -/
theorem safe_worker_exact (initial : ℤ) (iters : T → ℕ) :
    (∀ tr s, Trace (atomicSystem initial iters) tr s → tr.length ≤ ∑ t, iters t)
    ∧ ∀ s, Reachable (atomicSystem initial iters) s → Stuck (atomicSystem initial iters) s →
        (∀ t, s.todo t = []) ∧ s.data = initial + ∑ t, (iters t : ℤ) := by
  constructor
  · intro tr s h
    simpa [safeWorker] using lock_trace_length h
  · intro s h hstuck
    have hdone := (locks_stuck (fun t => disciplined_replicate (iters t) ()) h hstuck).1
    refine ⟨hdone, ?_⟩
    have hconserved := acts_conserve (φ := id) (w := fun _ => (1 : ℤ)) (fun _ _ => rfl) h
    simpa [LockState.pending, hdone, safeWorker, LockOp.weight] using hconserved

end CExercises.Threads
