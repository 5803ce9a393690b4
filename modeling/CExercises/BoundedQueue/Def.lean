import CExercises.Core.Block
import CExercises.Core.Transition

/-!
# The bounded queue between producers and consumers

Section 4 of `threads.c`: a ring of `QCAP` integers behind a mutex, with one condition variable for
"not full" and one for "not empty".

A thread that holds the mutex is alone, so what `bq_push`, `bq_pop` and `bq_close` do between
`pthread_mutex_lock` and either `pthread_mutex_unlock` or `pthread_cond_wait` is one atomic step.
`bqPush` and `bqPop` below are that step: they either go to sleep on their condition variable or
return.  A thread that wakes takes the mutex again and re-tests its condition, which is the same
step once more.

Producers run a list of pushes and closes; the `producer` of the source pushes its items and then
closes.  Consumers run `while (bq_pop(q, &val))`, and the values they got are kept in order (the
source adds them up).  The two lists `pushed` and `popped` are not in the program: they record the
values that went in and came out, in the order of the lock.
-/

namespace CExercises.BoundedQueue

def QCAP : ℕ := 8

/-- `BQueue`, without the mutex and the condition variables. -/
structure BQueue where
  data : Block ℤ
  head : ℕ
  tail : ℕ
  count : ℕ
  closed : Bool

/-- How a critical section ends: asleep in `pthread_cond_wait`, or with a result. -/
inductive Outcome (β : Type)
  | wait
  | ret (q : BQueue) (result : β)

/-- `bq_push`, returning the size seen under the lock. -/
def bqPush (q : BQueue) (val : ℤ) : Except Stop (Outcome ℕ) := do
  if q.count = QCAP then return .wait
  let data ← q.data.store q.tail val
  let q := { q with data := data, tail := (q.tail + 1) % QCAP, count := q.count + 1 }
  return .ret q q.count

/-- `bq_pop`: `none` when it returns 0, `some val` when it returns 1 with `*out = val`. -/
def bqPop (q : BQueue) : Except Stop (Outcome (Option ℤ)) := do
  if q.count = 0 ∧ q.closed = false then return .wait
  if q.count = 0 then return .ret q none
  let val ← q.data.load q.head
  return .ret { q with head := (q.head + 1) % QCAP, count := q.count - 1 } (some val)

/-- `bq_close`. -/
def bqClose (q : BQueue) : BQueue := { q with closed := true }

/-- What a producer still has to do. -/
inductive Call
  | push (val : ℤ)
  | close
  deriving DecidableEq

/-- The `producer` of the source, with any items. -/
def producer (items : List ℤ) : List Call := items.map .push ++ [.close]

/-- A producer: the calls it still has to make, and whether it sleeps on `not_full` inside the
first of them. -/
structure ProducerState where
  todo : List Call
  asleep : Bool

/-- Where a consumer stands in `while (bq_pop(q, &val))`. -/
inductive ConsumerPc
  | running
  | asleep
  | done
  deriving DecidableEq

/-- A consumer and the values it has popped. -/
structure ConsumerState where
  pc : ConsumerPc
  got : List ℤ

def ProducerState.Waits (p : ProducerState) : Prop := p.asleep = true

def ProducerState.wake (p : ProducerState) : ProducerState := { p with asleep := false }

def ConsumerState.Waits (c : ConsumerState) : Prop := c.pc = .asleep

def ConsumerState.wake (c : ConsumerState) : ConsumerState := { c with pc := .running }

instance : DecidablePred ConsumerState.Waits :=
  fun c => inferInstanceAs (Decidable (c.pc = .asleep))

/-- The queue, the threads, and the record of what went through. -/
structure State (P C : Type) where
  q : BQueue
  prod : P → ProducerState
  cons : C → ConsumerState
  pushed : List ℤ
  popped : List ℤ

section

variable {P C : Type} [DecidableEq P] [DecidableEq C]

/-- One step of one thread.  `spurious` says whether `pthread_cond_wait` may return without a
signal. -/
inductive Step (spurious : Bool) : P ⊕ C → State P C → State P C → Prop
  | pushWait {s : State P C} {p : P} {val : ℤ} {rest : List Call}
      (hpc : s.prod p = ⟨.push val :: rest, false⟩) (hq : bqPush s.q val = .ok .wait) :
      Step spurious (.inl p) s
        { s with prod := Function.update s.prod p ⟨.push val :: rest, true⟩ }
  | push {s : State P C} {p : P} {val : ℤ} {rest : List Call} {q : BQueue} {size : ℕ}
      {cons : C → ConsumerState}
      (hpc : s.prod p = ⟨.push val :: rest, false⟩) (hq : bqPush s.q val = .ok (.ret q size))
      (hsig : Signal ConsumerState.Waits ConsumerState.wake s.cons cons) :
      Step spurious (.inl p) s
        { q := q, prod := Function.update s.prod p ⟨rest, false⟩, cons := cons,
          pushed := s.pushed ++ [val], popped := s.popped }
  | close {s : State P C} {p : P} {rest : List Call}
      (hpc : s.prod p = ⟨.close :: rest, false⟩) :
      Step spurious (.inl p) s
        { s with
          q := bqClose s.q,
          prod := Function.update s.prod p ⟨rest, false⟩,
          cons := broadcast ConsumerState.Waits ConsumerState.wake s.cons }
  | popWait {s : State P C} {c : C} {got : List ℤ}
      (hpc : s.cons c = ⟨.running, got⟩) (hq : bqPop s.q = .ok .wait) :
      Step spurious (.inr c) s { s with cons := Function.update s.cons c ⟨.asleep, got⟩ }
  | popNone {s : State P C} {c : C} {got : List ℤ} {q : BQueue}
      (hpc : s.cons c = ⟨.running, got⟩) (hq : bqPop s.q = .ok (.ret q none)) :
      Step spurious (.inr c) s { s with q := q, cons := Function.update s.cons c ⟨.done, got⟩ }
  | pop {s : State P C} {c : C} {got : List ℤ} {q : BQueue} {val : ℤ} {prod : P → ProducerState}
      (hpc : s.cons c = ⟨.running, got⟩) (hq : bqPop s.q = .ok (.ret q (some val)))
      (hsig : Signal ProducerState.Waits ProducerState.wake s.prod prod) :
      Step spurious (.inr c) s
        { q := q, prod := prod, cons := Function.update s.cons c ⟨.running, got ++ [val]⟩,
          pushed := s.pushed, popped := s.popped ++ [val] }
  | wakeProducer {s : State P C} {p : P} (hspurious : spurious = true) (hpc : (s.prod p).Waits) :
      Step spurious (.inl p) s
        { s with prod := Function.update s.prod p (s.prod p).wake }
  | wakeConsumer {s : State P C} {c : C} (hspurious : spurious = true) (hpc : (s.cons c).Waits) :
      Step spurious (.inr c) s
        { s with cons := Function.update s.cons c (s.cons c).wake }

/-- The queue as `section_condvar` resets it; what the ring holds does not matter. -/
def emptyQueue (data : ℤ → ℤ) : BQueue := ⟨Block.ofCells QCAP data, 0, 0, 0, false⟩

/-- Producers with the given programs, and consumers, on an empty queue. -/
def system (spurious : Bool) (prog : P → List Call) : System (State P C) (P ⊕ C) where
  init s := ∃ data, s = ⟨emptyQueue data, fun p => ⟨prog p, false⟩, fun _ => ⟨.running, []⟩, [], []⟩
  step := Step spurious

end

end CExercises.BoundedQueue
