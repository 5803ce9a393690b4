import CExercises.StackQueue.QueueRefinement
import CExercises.StackQueue.StackDef

/-!
# The stack is last in, first out, and neither structure leaks

`StackHolds s vs` says that `top` starts a chain with the values `vs`, that `size` is its length,
and that the heap has no other blocks.  Every call keeps all three and answers as a list does; in
particular what is printed is the list, top first.

The last clause is what `stack_free` needs.  It pops as long as `size` is not zero, and a chain as
long as `size` that is the whole heap is given back completely; then the header goes.  For the queue
the same clause is added to the invariant it has (`QueueOwns`).
-/

namespace CExercises.StackQueue

/-- The stack holds the values `vs`, top first, and the heap holds nothing else. -/
structure StackOwns (s : StackState) (xs : List (ℕ × ℤ)) : Prop where
  chain : Chain (s.mem.view nodeView) s.stack.top xs none
  size : s.stack.size = xs.length
  blocks : s.mem.blocks = xs.length

def StackHolds (s : StackState) (vs : List ℤ) : Prop := ∃ xs, StackOwns s xs ∧ payloads xs = vs

/-- An abstract stack, with the messages the code leaves with when it is empty.  One of more than
`INT_MAX` values cannot be counted. -/
def lifoCall (vs : List ℤ) : StackCall → Except Stop (List ℤ × Ret)
  | .push value => do return (← counted (value :: vs), .unit)
  | .pop =>
      match vs with
      | [] => .error (.exit "pop on empty stack")
      | v :: vs => .ok (vs, .int v)
  | .peek =>
      match vs with
      | [] => .error (.exit "peek on empty stack")
      | v :: vs => .ok (v :: vs, .int v)
  | .isEmpty => .ok (vs, .int (if vs = [] then 1 else 0))
  | .print =>
      .ok (vs, .text ("top[" ++ ", ".intercalate (vs.map toString) ++ "]  size="
        ++ toString (vs.length : ℤ) ++ "\n"))

section

variable {M : Malloc Node} {s : StackState} {xs : List (ℕ × ℤ)}

lemma stackOwns_create : StackOwns stackCreate [] := ⟨rfl, rfl, rfl⟩

lemma StackOwns.isEmpty_iff (h : StackOwns s xs) : stackIsEmpty s.stack = true ↔ xs = [] := by
  simp only [stackIsEmpty, beq_iff_eq, h.size]
  rw [← List.length_eq_zero_iff]
  omega

lemma StackOwns.not_isEmpty {x : ℕ × ℤ} (h : StackOwns s (x :: xs)) :
    stackIsEmpty s.stack = false := by
  rw [Bool.eq_false_iff]
  intro hempty
  exact List.cons_ne_nil x xs (h.isEmpty_iff.mp hempty)

/-- Pushing puts the new node on top, unless the `size++` at its end overflows. -/
lemma StackOwns.push_eq (h : StackOwns s xs) (value : ℤ) :
    ∃ m, stackPush M s value
        = (intSucc s.stack.size >>= fun size => .ok ⟨m, ⟨some (M.place s.mem), size⟩⟩)
      ∧ Chain (m.view nodeView) (some (M.place s.mem)) ((M.place s.mem, value) :: xs) none
      ∧ m.blocks = xs.length + 1 := by
  have hfresh : M.place s.mem ∉ addrs xs := h.chain.not_mem_of_eq_none M.view_place
  have hnew : (nodeCreate M s.mem value).2.view nodeView (M.place s.mem) = some (value, none) := by
    rw [nodeCreate_view, Function.update_self]
  obtain ⟨m', hm', hview, _⟩ := storeNext_eq hnew s.stack.top
  refine ⟨m', ?_, ?_, ?_⟩
  · simp [stackPush, nodeCreate_fst, hm']
  · rw [hview, nodeCreate_view, Function.update_idem]
    exact h.chain.cons_update hfresh
  · rw [blocks_storeNext hm', blocks_nodeCreate, h.blocks]

lemma StackOwns.push (h : StackOwns s xs) (value : ℤ) (hroom : (xs.length : ℤ) < INT_MAX) :
    ∃ s', stackPush M s value = .ok s' ∧ StackOwns s' ((M.place s.mem, value) :: xs) := by
  obtain ⟨m, hrun, hchain, hblocks⟩ := h.push_eq (M := M) value
  have hsize := h.size
  refine ⟨⟨m, ⟨some (M.place s.mem), s.stack.size + 1⟩⟩, ?_, hchain, ?_, hblocks⟩
  · rw [hrun, intSucc_eq (by omega), ok_bind]
  · simp [hsize]

lemma StackOwns.push_overflow (h : StackOwns s xs) (value : ℤ) (hfull : INT_MAX ≤ xs.length) :
    stackPush M s value = .error .overflow := by
  obtain ⟨m, hrun, -⟩ := h.push_eq (M := M) value
  rw [hrun, intSucc_overflow (by rw [h.size]; exact hfull), error_bind]

/-- `size--` on a stack that is not empty. -/
lemma StackOwns.intPred {x : ℕ × ℤ} (h : StackOwns s (x :: xs)) :
    CExercises.intPred s.stack.size = .ok xs.length := by
  rw [h.size, List.length_cons, intPred_eq (by unfold INT_MIN; omega)]
  congr 1
  omega

lemma StackOwns.pop {x : ℕ × ℤ} (h : StackOwns s (x :: xs)) :
    ∃ s', stackPop s = .ok (x.2, s') ∧ StackOwns s' xs := by
  obtain ⟨r, htop, hx, hchain⟩ := h.chain.unlink_first
  obtain ⟨m', hm', hview⟩ := Memory.free_of_view hx
  refine ⟨⟨m', ⟨r, xs.length⟩⟩, ?_, ?_, rfl, ?_⟩
  · simp [stackPop, h.not_isEmpty, htop, loadValue_eq hx, loadNext_eq hx, hm', h.intPred]
  · show Chain (m'.view nodeView) _ _ _
    rw [hview]
    exact hchain
  · have hone := Memory.blocks_free (Option.some_ne_none x.1) hm'
    have hall := h.blocks
    rw [List.length_cons] at hall
    show m'.blocks = _
    omega

lemma StackOwns.peek {x : ℕ × ℤ} (h : StackOwns s (x :: xs)) : stackPeek s = .ok x.2 := by
  obtain ⟨r, htop, hx, _⟩ := h.chain.unlink_first
  simp [stackPeek, h.not_isEmpty, htop, loadValue_eq hx]

lemma StackOwns.print (h : StackOwns s xs) :
    stackPrint s = .ok ("top[" ++ ", ".intercalate ((payloads xs).map toString) ++ "]  size="
      ++ toString (xs.length : ℤ) ++ "\n") := by
  have hlen := h.chain.length_le_brk
  have hshown := printChain_eq (m := s.mem) (f := nodeView) toString ", " (s.mem.brk + 1) h.chain
    (by omega)
  simp [stackPrint, hshown, h.size]

/-- Popping until `size` is zero empties the heap. -/
lemma StackOwns.popAll : ∀ {xs : List (ℕ × ℤ)} {s : StackState} (fuel : ℕ), StackOwns s xs →
    xs.length < fuel → ∃ m, popAll fuel s = .ok m ∧ ∀ p, m.cells p = none
  | _, _, 0, _, hlen => absurd hlen (Nat.not_lt_zero _)
  | [], s, fuel + 1, h, _ => by
      have hempty := h.isEmpty_iff.mpr rfl
      exact ⟨s.mem, by simp [StackQueue.popAll, hempty], Memory.blocks_eq_zero.mp h.blocks⟩
  | x :: xs, s, fuel + 1, h, hlen => by
      obtain ⟨s₁, hs₁, h₁⟩ := h.pop
      rw [List.length_cons] at hlen
      obtain ⟨m, hm, hgone⟩ := StackOwns.popAll fuel h₁ (by omega)
      exact ⟨m, by simp [StackQueue.popAll, h.not_isEmpty, hs₁, hm], hgone⟩

/-- One call does what the list does, down to the message of an empty stack. -/
theorem stackHolds_call (M : Malloc Node) (s : StackState) (vs : List ℤ) (c : StackCall)
    (h : StackHolds s vs) : Matches StackHolds (stackCall M s c) (lifoCall vs c) := by
  obtain ⟨xs, howns, rfl⟩ := h
  cases c with
  | push value =>
      have hlen : (value :: payloads xs).length = xs.length + 1 := by simp
      by_cases hroom : (xs.length : ℤ) < INT_MAX
      · obtain ⟨s', hs', howns'⟩ := howns.push (M := M) value hroom
        rw [lifoCall, counted_of_le (by omega)]
        exact ⟨s', by simp [stackCall, hs'], _, howns', rfl⟩
      · have hover := howns.push_overflow (M := M) value (by omega)
        rw [lifoCall, counted_of_lt (by omega), error_bind]
        show stackCall M s (.push value) = .error .overflow
        simp [stackCall, hover]
  | pop =>
      cases xs with
      | nil =>
          have hempty := howns.isEmpty_iff.mpr rfl
          show stackCall M s .pop = .error (.exit "pop on empty stack")
          simp [stackCall, stackPop, hempty]
      | cons x xs =>
          obtain ⟨s', hs', howns'⟩ := howns.pop
          exact ⟨s', by simp [stackCall, hs'], xs, howns', rfl⟩
  | peek =>
      cases xs with
      | nil =>
          have hempty := howns.isEmpty_iff.mpr rfl
          show stackCall M s .peek = .error (.exit "peek on empty stack")
          simp [stackCall, stackPeek, hempty]
      | cons x xs =>
          exact ⟨s, by simp [stackCall, howns.peek], x :: xs, howns, rfl⟩
  | isEmpty =>
      refine ⟨s, ?_, xs, howns, rfl⟩
      have hiff := howns.isEmpty_iff
      simp [stackCall, hiff]
  | print =>
      refine ⟨s, ?_, xs, howns, rfl⟩
      simp [stackCall, howns.print]

end

/-- **Every client of the stack.**  Its calls through the pointer answer as a list does, or the
process stops as the list does: with the message of an empty stack exactly where the list is empty,
or in a `size++` that overflows.  When the client is done, `stack_free` leaves nothing in the
heaps. -/
theorem stack_run_lifo (MH : Malloc Stack) (M : Malloc Node) (cs : List StackCall) :
    match runCalls lifoCall [] cs with
    | .ok (vs, rets) =>
        ∃ s gone, stackRunPtr MH M cs = .ok (s, rets)
          ∧ s.read stackLayout (fun s => .ok s.stack.size) = .ok (vs.length : ℤ)
          ∧ s.headers.blocks = 1 ∧ s.rest.blocks = vs.length
          ∧ stackFree s = .ok gone ∧ (∀ p, gone.rest.cells p = none)
          ∧ ∀ p, gone.headers.cells p = none
    | .error stop => stackRunPtr MH M cs = .error stop := by
  have hmatch := runCalls_matches (stackHolds_call M) cs stackCreate [] ⟨[], stackOwns_create, rfl⟩
  have hcreate := Handle.behind_create (e := stackLayout) MH stackCreate
  cases hlifo : runCalls lifoCall [] cs with
  | error stop =>
      rw [hlifo] at hmatch
      exact hcreate.run_error hmatch
  | ok r =>
      obtain ⟨vs, rets⟩ := r
      rw [hlifo] at hmatch
      obtain ⟨t, hrun, xs, howns, rfl⟩ := hmatch
      obtain ⟨s, hs, hbehind⟩ := hcreate.run_ok hrun
      have hlen := howns.chain.length_le_brk
      obtain ⟨m, hm, hempty⟩ := howns.popAll (t.mem.brk + 1) (by omega)
      obtain ⟨gone, hfree, hrest, hheaders⟩ :=
        hbehind.free (f := fun s => popAll (s.mem.brk + 1) s) hm
      refine ⟨s, gone, hs, ?_, hbehind.blocks, ?_, hfree, ?_, hheaders⟩
      · rw [hbehind.read, howns.size, payloads, List.length_map]
      · rw [hbehind.rest, payloads, List.length_map]
        exact howns.blocks
      · rw [hrest]
        exact hempty

/-! ## The queue -/

/-- The invariant of the queue, and that the heap holds nothing else. -/
structure QueueOwns (s : QueueState) (xs : List (ℕ × ℤ)) : Prop where
  inv : QueueInv s xs
  blocks : s.mem.blocks = xs.length

section

variable {M : Malloc Node} {s : QueueState} {xs : List (ℕ × ℤ)}

lemma QueueOwns.not_isEmpty {x : ℕ × ℤ} (h : QueueOwns s (x :: xs)) :
    queueIsEmpty s.queue = false := by
  rw [Bool.eq_false_iff]
  intro hempty
  exact List.cons_ne_nil x xs (h.inv.isEmpty_iff.mp hempty)

/-- A call adds the block it enqueues, and gives back the one it dequeues. -/
lemma blocks_queueEnqueue {s' : QueueState} {value : ℤ} (h : queueEnqueue M s value = .ok s') :
    s'.mem.blocks = s.mem.blocks + 1 := by
  simp only [queueEnqueue] at h
  split at h
  · obtain ⟨m, hm, h⟩ := bind_eq_ok.mp h
    obtain ⟨size, _, h⟩ := bind_eq_ok.mp h
    cases h
    show m.blocks = _
    rw [blocks_storeNext hm, blocks_nodeCreate]
  · obtain ⟨size, _, h⟩ := bind_eq_ok.mp h
    cases h
    exact blocks_nodeCreate M value

lemma blocks_queueDequeue {s' : QueueState} {v : ℤ} (h : queueDequeue s = .ok (v, s')) :
    s'.mem.blocks + 1 = s.mem.blocks := by
  simp only [queueDequeue] at h
  split at h
  · cases h
  · obtain ⟨val, hval, h⟩ := bind_eq_ok.mp h
    obtain ⟨next, _, h⟩ := bind_eq_ok.mp h
    obtain ⟨m, hm, h⟩ := bind_eq_ok.mp h
    obtain ⟨size, _, h⟩ := bind_eq_ok.mp h
    cases h
    show m.blocks + 1 = _
    refine Memory.blocks_free ?_ hm
    intro hhead
    rw [hhead] at hval
    cases hval

/-- The heap of a queue never holds more or less than its values. -/
lemma QueueOwns.call {s' : QueueState} {c : QueueCall} {o : Option ℤ} (h : QueueOwns s xs)
    (hcall : queueCall M s c = .ok (s', o)) : ∃ xs', QueueOwns s' xs' := by
  cases c with
  | enqueue value =>
      by_cases hroom : (xs.length : ℤ) < INT_MAX
      · obtain ⟨t, ht, hinv⟩ := h.inv.enqueue (M := M) value hroom
        simp only [queueCall, ht] at hcall
        cases hcall
        exact ⟨_, hinv, by rw [blocks_queueEnqueue ht, h.blocks, List.length_append]; rfl⟩
      · have hover := h.inv.enqueue_overflow (M := M) value (by omega)
        simp [queueCall, hover] at hcall
  | dequeue =>
      cases xs with
      | nil =>
          have hempty := h.inv.isEmpty_iff.mpr rfl
          simp [queueCall, queueDequeue, hempty] at hcall
      | cons x xs =>
          obtain ⟨t, ht, hinv⟩ := h.inv.dequeue
          simp only [queueCall, ht] at hcall
          cases hcall
          have hone := blocks_queueDequeue ht
          have hall := h.blocks
          rw [List.length_cons] at hall
          refine ⟨xs, hinv, ?_⟩
          show t.mem.blocks = _
          omega
  | peek =>
      obtain ⟨v, _, hret⟩ := bind_eq_ok.mp hcall
      cases hret
      exact ⟨xs, h⟩

lemma QueueOwns.run : ∀ (cs : List QueueCall) {s s' : QueueState} {xs : List (ℕ × ℤ)}
    {rets : List (Option ℤ)}, QueueOwns s xs → runCalls (queueCall M) s cs = .ok (s', rets) →
      ∃ xs', QueueOwns s' xs'
  | [], _, _, xs, _, h, hrun => by
      cases hrun
      exact ⟨xs, h⟩
  | c :: cs, s, s', xs, rets, h, hrun => by
      obtain ⟨s₁, o, os, hstep, hrest, _⟩ := runCalls_cons_inv hrun
      obtain ⟨xs₁, h₁⟩ := h.call hstep
      exact QueueOwns.run cs h₁ hrest

/-- Dequeuing until `size` is zero empties the heap. -/
lemma QueueOwns.dequeueAll : ∀ {xs : List (ℕ × ℤ)} {s : QueueState} (fuel : ℕ), QueueOwns s xs →
    xs.length < fuel → ∃ m, dequeueAll fuel s = .ok m ∧ ∀ p, m.cells p = none
  | _, _, 0, _, hlen => absurd hlen (Nat.not_lt_zero _)
  | [], s, fuel + 1, h, _ => by
      have hempty := h.inv.isEmpty_iff.mpr rfl
      exact ⟨s.mem, by simp [StackQueue.dequeueAll, hempty], Memory.blocks_eq_zero.mp h.blocks⟩
  | x :: xs, s, fuel + 1, h, hlen => by
      obtain ⟨s₁, hs₁, hinv₁⟩ := h.inv.dequeue
      have hone := blocks_queueDequeue hs₁
      have hall := h.blocks
      rw [List.length_cons] at hlen hall
      obtain ⟨m, hm, hgone⟩ := QueueOwns.dequeueAll fuel ⟨hinv₁, by omega⟩ (by omega)
      exact ⟨m, by simp [StackQueue.dequeueAll, h.not_isEmpty, hs₁, hm], hgone⟩

lemma QueueInv.print (h : QueueInv s xs) :
    queuePrint s = .ok ("head[" ++ ", ".intercalate ((payloads xs).map toString)
      ++ "]tail  size=" ++ toString (xs.length : ℤ) ++ "\n") := by
  have hlen := h.chain.length_le_brk
  have hshown := printChain_eq (m := s.mem) (f := nodeView) toString ", " (s.mem.brk + 1) h.chain
    (by omega)
  simp [queuePrint, hshown, h.size]

end

/-- **Every client of the queue.**  Wherever its calls through the pointer have led, what
`queue_print` shows are the values enqueued and not yet dequeued, in that order, there is one header
and one node for each of them, and `queue_free` gives all of them back. -/
theorem queue_run_prints_and_frees (MH : Malloc Queue) (M : Malloc Node) (cs : List QueueCall) :
    match fifoRun cs with
    | .ok (vs, rets) =>
        ∃ q gone, queueRunPtr MH M cs = .ok (q, rets) ∧ dequeued cs rets ++ vs = enqueued cs
          ∧ q.read queueLayout queuePrint = .ok ("head[" ++ ", ".intercalate (vs.map toString)
            ++ "]tail  size=" ++ toString (vs.length : ℤ) ++ "\n")
          ∧ q.headers.blocks = 1 ∧ q.rest.blocks = vs.length
          ∧ queueFree q = .ok gone ∧ (∀ p, gone.rest.cells p = none)
          ∧ ∀ p, gone.headers.cells p = none
    | .error stop => queueRunPtr MH M cs = .error stop := by
  have hmatch := queueRun_matches M cs
  have hcreate := Handle.behind_create (e := queueLayout) MH queueCreate
  cases hfifo : fifoRun cs with
  | error stop =>
      rw [hfifo] at hmatch
      exact hcreate.run_error hmatch
  | ok r =>
      obtain ⟨vs, rets⟩ := r
      rw [hfifo] at hmatch
      obtain ⟨t, hrun, xs, hinv, rfl⟩ := hmatch
      obtain ⟨q, hq, hbehind⟩ := hcreate.run_ok hrun
      have hist := fifo_history cs [] (payloads xs) rets hfifo
      obtain ⟨xs', howns⟩ := QueueOwns.run cs ⟨queueInv_create, rfl⟩ hrun
      obtain rfl := hinv.chain.unique howns.inv.chain
      have hlen := hinv.chain.length_le_brk
      obtain ⟨m, hm, hempty⟩ := howns.dequeueAll (t.mem.brk + 1) (by omega)
      obtain ⟨gone, hfree, hrest, hheaders⟩ :=
        hbehind.free (f := fun s => dequeueAll (s.mem.brk + 1) s) hm
      refine ⟨q, gone, hq, by simpa using hist, ?_, hbehind.blocks, ?_, hfree, ?_, hheaders⟩
      · rw [hbehind.read, payloads, List.length_map]
        exact hinv.print
      · rw [hbehind.rest, payloads, List.length_map]
        exact howns.blocks
      · rw [hrest]
        exact hempty

end CExercises.StackQueue
