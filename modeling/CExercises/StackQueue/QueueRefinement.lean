import CExercises.StackQueue.QueueDef

/-!
# The queue is first in, first out

`QueueInv s xs` ties the three fields of the header to one chain `xs`: `head` starts it, `tail` is
the address of its last node, `size` is its length.  Every call keeps the three in step, and does
to the values along the chain what an abstract FIFO does to a list.

The delicate step is the dequeue of the last node.  Were `tail` left alone there, the next enqueue
would write through a freed block, and the heap of `Core/Memory.lean` would stop with `.dangling`.
`queue_run_invariant` rules that out for every client.
-/

namespace CExercises.StackQueue

/-- The header and the heap agree on the chain `xs`. -/
structure QueueInv (s : QueueState) (xs : List (ℕ × ℤ)) : Prop where
  chain : Chain (s.mem.view nodeView) s.queue.head xs none
  tail : s.queue.tail = xs.getLast?.map Prod.fst
  size : s.queue.size = xs.length

/-- An abstract FIFO, with the messages the code leaves with when it is empty.  One of more than
`INT_MAX` values cannot be counted. -/
def fifoCall (vs : List ℤ) : QueueCall → Except Stop (List ℤ × Option ℤ)
  | .enqueue value => do return (← counted (vs ++ [value]), none)
  | .dequeue =>
      match vs with
      | [] => .error (.exit "dequeue on empty queue")
      | v :: vs => .ok (vs, some v)
  | .peek =>
      match vs with
      | [] => .error (.exit "peek on empty queue")
      | v :: vs => .ok (v :: vs, some v)

/-- A client's calls on an abstract FIFO that starts empty. -/
def fifoRun (cs : List QueueCall) : Except Stop (List ℤ × List (Option ℤ)) :=
  runCalls fifoCall [] cs

/-- The queue holds the values `vs`. -/
def QueueHolds (s : QueueState) (vs : List ℤ) : Prop := ∃ xs, QueueInv s xs ∧ payloads xs = vs

section

variable {M : Malloc Node} {s : QueueState} {xs : List (ℕ × ℤ)}

lemma queueInv_create : QueueInv queueCreate [] := ⟨rfl, rfl, rfl⟩

lemma QueueInv.isEmpty_iff (h : QueueInv s xs) : queueIsEmpty s.queue = true ↔ xs = [] := by
  simp only [queueIsEmpty, beq_iff_eq, h.size]
  rw [← List.length_eq_zero_iff]
  omega

lemma QueueInv.tail_eq_none_iff (h : QueueInv s xs) : s.queue.tail = none ↔ xs = [] := by
  rw [h.tail]
  simp

/-- Enqueuing hangs the new node behind the last one, unless the `size++` at its end overflows. -/
lemma QueueInv.enqueue_eq (h : QueueInv s xs) (value : ℤ) :
    ∃ m head, queueEnqueue M s value
        = (intSucc s.queue.size >>= fun size => .ok ⟨m, ⟨head, some (M.place s.mem), size⟩⟩)
      ∧ Chain (m.view nodeView) head (xs ++ [(M.place s.mem, value)]) none := by
  have hnone : s.mem.view nodeView (M.place s.mem) = none := M.view_place
  have hfresh := h.chain.not_mem_of_eq_none hnone
  have hview₁ := nodeCreate_view (m := s.mem) (v := value) M
  rcases List.eq_nil_or_concat xs with rfl | ⟨ys, x, rfl⟩
  · -- the first node: `tail` is `NULL` and both ends are set
    have htail := h.tail_eq_none_iff.mpr rfl
    refine ⟨(nodeCreate M s.mem value).2, some (M.place s.mem), ?_, ?_⟩
    · simp [queueEnqueue, htail, nodeCreate_fst]
    · rw [hview₁]
      exact ⟨rfl, none, by simp, rfl⟩
  · -- `tail` aliases the last node of the chain from `head`
    rw [List.concat_eq_append] at *
    have htail : s.queue.tail = some x.1 := by simp [h.tail]
    have hold : Chain ((nodeCreate M s.mem value).2.view nodeView) s.queue.head (ys ++ [x])
        none := by
      rw [hview₁]
      exact h.chain.update hfresh
    obtain ⟨r, hx, _, _, hxys, _⟩ := hold.split_at
    obtain ⟨m', hm', hview, _⟩ := storeNext_eq hx (some (M.place s.mem))
    refine ⟨m', s.queue.head, ?_, ?_⟩
    · simp [queueEnqueue, htail, nodeCreate_fst, hm']
    · rw [hview, chain_append]
      refine ⟨some (M.place s.mem), hold.redirect_last hxys, rfl, none, ?_, rfl⟩
      have hne : M.place s.mem ≠ x.1 := fun he => hfresh (by simp [he])
      rw [Function.update_of_ne hne, hview₁, Function.update_self]

lemma QueueInv.enqueue (h : QueueInv s xs) (value : ℤ) (hroom : (xs.length : ℤ) < INT_MAX) :
    ∃ s', queueEnqueue M s value = .ok s' ∧ QueueInv s' (xs ++ [(M.place s.mem, value)]) := by
  obtain ⟨m, head, hrun, hchain⟩ := h.enqueue_eq (M := M) value
  have hsize := h.size
  refine ⟨⟨m, ⟨head, some (M.place s.mem), s.queue.size + 1⟩⟩, ?_, hchain, by simp, ?_⟩
  · rw [hrun, intSucc_eq (by omega), ok_bind]
  · simp [hsize]

lemma QueueInv.enqueue_overflow (h : QueueInv s xs) (value : ℤ) (hfull : INT_MAX ≤ xs.length) :
    queueEnqueue M s value = .error .overflow := by
  obtain ⟨m, head, hrun, -⟩ := h.enqueue_eq (M := M) value
  rw [hrun, intSucc_overflow (by rw [h.size]; exact hfull), error_bind]

/-- `size--` on a queue that is not empty. -/
lemma QueueInv.intPred {x : ℕ × ℤ} (h : QueueInv s (x :: xs)) :
    CExercises.intPred s.queue.size = .ok xs.length := by
  rw [h.size, List.length_cons, intPred_eq (by unfold INT_MIN; omega)]
  congr 1
  omega

lemma QueueInv.dequeue {x : ℕ × ℤ} (h : QueueInv s (x :: xs)) :
    ∃ s', queueDequeue s = .ok (x.2, s') ∧ QueueInv s' xs := by
  have hempty : queueIsEmpty s.queue = false := by
    rw [Bool.eq_false_iff]
    exact fun he => absurd (h.isEmpty_iff.mp he) (by simp)
  obtain ⟨r, hhead, hx, hchain⟩ := h.chain.unlink_first
  obtain ⟨m', hm', hview⟩ := Memory.free_of_view hx
  refine ⟨⟨m', ⟨r, if r = none then none else s.queue.tail, xs.length⟩⟩, ?_, ?_, ?_, rfl⟩
  · simp [queueDequeue, hempty, hhead, loadValue_eq hx, loadNext_eq hx, hm', h.intPred]
  · show Chain (m'.view nodeView) _ _ _
    rw [hview]
    exact hchain
  · show (if r = none then none else s.queue.tail) = xs.getLast?.map Prod.fst
    cases xs with
    | nil =>
        have hr : r = none := hchain
        simp [hr]
    | cons y ys =>
        have hr : r = some y.1 := hchain.1
        simp [hr, h.tail, List.getLast?_cons_cons]

lemma QueueInv.peek {x : ℕ × ℤ} (h : QueueInv s (x :: xs)) : queuePeek s = .ok x.2 := by
  have hempty : queueIsEmpty s.queue = false := by
    rw [Bool.eq_false_iff]
    exact fun he => absurd (h.isEmpty_iff.mp he) (by simp)
  obtain ⟨r, hhead, hx, _⟩ := h.chain.unlink_first
  simp [queuePeek, hempty, hhead, loadValue_eq hx]

/-- One call does what the FIFO does, down to the message of an empty queue. -/
theorem queueHolds_call (M : Malloc Node) (s : QueueState) (vs : List ℤ) (c : QueueCall)
    (h : QueueHolds s vs) : Matches QueueHolds (queueCall M s c) (fifoCall vs c) := by
  obtain ⟨xs, hinv, rfl⟩ := h
  cases c with
  | enqueue value =>
      have hlen : (payloads xs ++ [value]).length = xs.length + 1 := by simp
      by_cases hroom : (xs.length : ℤ) < INT_MAX
      · obtain ⟨s', hs', hinv'⟩ := hinv.enqueue (M := M) value hroom
        rw [fifoCall, counted_of_le (by omega)]
        exact ⟨s', by simp [queueCall, hs'], _, hinv', by simp⟩
      · have hover := hinv.enqueue_overflow (M := M) value (by omega)
        rw [fifoCall, counted_of_lt (by omega), error_bind]
        show queueCall M s (.enqueue value) = .error .overflow
        simp [queueCall, hover]
  | dequeue =>
      cases xs with
      | nil =>
          have hempty := hinv.isEmpty_iff.mpr rfl
          show queueCall M s .dequeue = .error (.exit "dequeue on empty queue")
          simp [queueCall, queueDequeue, hempty]
      | cons x xs =>
          obtain ⟨s', hs', hinv'⟩ := hinv.dequeue
          exact ⟨s', by simp [queueCall, hs'], xs, hinv', rfl⟩
  | peek =>
      cases xs with
      | nil =>
          have hempty := hinv.isEmpty_iff.mpr rfl
          show queueCall M s .peek = .error (.exit "peek on empty queue")
          simp [queueCall, queuePeek, hempty]
      | cons x xs =>
          refine ⟨s, ?_, x :: xs, hinv, rfl⟩
          simp [queueCall, hinv.peek]

end

/-- **First in, first out.**  What has come out, followed by what is still inside, is what went
in. -/
theorem fifo_history : ∀ (cs : List QueueCall) (vs vs' : List ℤ) (rets : List (Option ℤ)),
    runCalls fifoCall vs cs = .ok (vs', rets) → dequeued cs rets ++ vs' = vs ++ enqueued cs
  | [], vs, vs', rets, h => by
      cases h
      simp [dequeued, enqueued]
  | c :: cs, vs, vs', rets, h => by
      obtain ⟨vs₁, ret, rets', hstep, hrest, rfl⟩ := runCalls_cons_inv h
      have ih := fifo_history cs vs₁ vs' rets' hrest
      cases c with
      | enqueue value =>
          obtain ⟨vs₂, hcount, hstep⟩ := bind_eq_ok.mp hstep
          rw [counted_inv hcount] at hstep
          cases hstep
          simpa [dequeued, enqueued] using ih
      | dequeue =>
          cases vs with
          | nil => cases hstep
          | cons v vs =>
              cases hstep
              simpa [dequeued, enqueued] using ih
      | peek =>
          cases vs with
          | nil => cases hstep
          | cons v vs =>
              cases hstep
              simpa [dequeued, enqueued] using ih

/-- What holds in a state reached by the calls `cs`, which returned `rets`. -/
structure QueueReached (s : QueueState) (cs : List QueueCall) (rets : List (Option ℤ))
    (xs : List (ℕ × ℤ)) : Prop where
  chain : Chain (s.mem.view nodeView) s.queue.head xs none
  size : s.queue.size = xs.length
  head_null : s.queue.head = none ↔ s.queue.size = 0
  tail_null : s.queue.tail = none ↔ s.queue.size = 0
  tail_last : ∀ ys x, xs = ys ++ [x] →
    s.queue.tail = some x.1 ∧ loadNext s.mem s.queue.tail = .ok none
  history : dequeued cs rets ++ payloads xs = enqueued cs
  next_out : ∀ v vs, payloads xs = v :: vs →
    queuePeek s = .ok v ∧ ∃ s', queueDequeue s = .ok (v, s')
  empty : xs = [] → queuePeek s = .error (.exit "peek on empty queue")
    ∧ queueDequeue s = .error (.exit "dequeue on empty queue")

lemma QueueInv.reached {s : QueueState} {xs : List (ℕ × ℤ)} {cs : List QueueCall}
    {rets : List (Option ℤ)} (h : QueueInv s xs)
    (hist : dequeued cs rets ++ payloads xs = enqueued cs) : QueueReached s cs rets xs where
  chain := h.chain
  size := h.size
  head_null := by
    rw [← h.chain.eq_nil_iff, h.size, ← List.length_eq_zero_iff]
    omega
  tail_null := by
    rw [h.tail_eq_none_iff, h.size, ← List.length_eq_zero_iff]
    omega
  tail_last := by
    rintro ys x rfl
    have htail : s.queue.tail = some x.1 := by simp [h.tail]
    obtain ⟨r, hx, _, hend, _⟩ := h.chain.split_at
    have hr : r = none := hend
    subst hr
    rw [htail]
    exact ⟨rfl, loadNext_eq hx⟩
  history := hist
  next_out := by
    intro v vs hv
    cases xs with
    | nil => simp at hv
    | cons x xs =>
        have hxv : x.2 = v := by simpa using (List.cons.inj hv).1
        subst hxv
        obtain ⟨s', hs', _⟩ := h.dequeue
        exact ⟨h.peek, s', hs'⟩
  empty := by
    intro hnil
    have hempty := h.isEmpty_iff.mpr hnil
    simp [queuePeek, queueDequeue, hempty]

lemma queueRun_matches (M : Malloc Node) (cs : List QueueCall) :
    Matches QueueHolds (queueRun M cs) (fifoRun cs) :=
  runCalls_matches (queueHolds_call M) cs queueCreate [] ⟨[], queueInv_create, rfl⟩

/-- **Every client.**  Its calls either all return, in a state where the three fields agree and
nothing was lost, duplicated or reordered, or the process stops as the FIFO does: with one of the
two messages, exactly when the FIFO is empty at that point, or in a `size++` that overflows. -/
theorem queue_run_invariant (M : Malloc Node) (cs : List QueueCall) :
    match fifoRun cs with
    | .ok (vs, rets) =>
        ∃ s xs, queueRun M cs = .ok (s, rets) ∧ payloads xs = vs ∧ QueueReached s cs rets xs
    | .error stop => queueRun M cs = .error stop := by
  have hmatch := queueRun_matches M cs
  cases hfifo : fifoRun cs with
  | error stop =>
      rw [hfifo] at hmatch
      exact hmatch
  | ok r =>
      obtain ⟨vs, rets⟩ := r
      rw [hfifo] at hmatch
      obtain ⟨s, hs, xs, hinv, hvals⟩ := hmatch
      have hist := fifo_history cs [] vs rets hfifo
      exact ⟨s, xs, hs, hvals, hinv.reached (by rw [hvals]; simpa using hist)⟩

lemma queueRun_enqueue_overflows (M : Malloc Node) (value : ℤ) {n : ℕ} (hn : INT_MAX < n) :
    queueRun M (List.replicate n (.enqueue value)) = .error .overflow := by
  have hmatch := queueRun_matches M (List.replicate n (.enqueue value))
  have hpos : 0 < n := by
    unfold INT_MAX at hn
    omega
  have hfifo := runCalls_replicate_overflows (f := fifoCall) (i := .enqueue value)
    (fun vs => vs ++ [value]) (fun _ => rfl) (by simp) n [] hpos (by simpa using hn)
  rw [fifoRun, hfifo] at hmatch
  exact hmatch

/-- After `2 ^ 31` calls of `queue_enqueue`, `size` cannot be the length of the chain. -/
theorem queue_size_overflows :
    queueRun Malloc.bump (List.replicate 2147483648 (.enqueue 7)) = .error .overflow :=
  queueRun_enqueue_overflows Malloc.bump 7 (by decide)

end CExercises.StackQueue
