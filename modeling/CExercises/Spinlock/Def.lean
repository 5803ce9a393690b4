import CExercises.Core.Transition
import Mathlib.Data.Int.Notation

/-!
# The spinlock

Section 5 of `atomics.c`: threads that increment a shared counter under a lock made of one
`atomic_flag`.  `g_spin_count++` is not atomic.  It loads the counter and stores the value plus one,
and these are two steps; so are the test-and-set of `spin_lock` and the clear of `spin_unlock`.
Memory is sequentially consistent.

Each thread runs `spin_worker` with a number of iterations of its own.  The counter is an integer
here and a `long` in the source, which has room for 2^63 - 1 increments from 0; more are not
considered.
-/

namespace CExercises.Spinlock

/-- Where a thread stands in an iteration. -/
inductive Pc
  /-- In the loop of `spin_lock`, or before it. -/
  | lock
  | load
  /-- With the loaded value in a register. -/
  | store (r : ℤ)
  | unlock
  deriving DecidableEq

/-- A run of `spin_worker`: its loop counter `i`, and where it stands. -/
structure Worker where
  i : ℕ
  pc : Pc

/-- `g_spin`, `g_spin_count` and the threads. -/
structure State (T : Type) where
  flag : Bool
  count : ℤ
  workers : T → Worker

/-- The thread has left its loop. -/
def Finished {T : Type} (iters : T → ℕ) (s : State T) (t : T) : Prop :=
  (s.workers t).pc = .lock ∧ ¬ (s.workers t).i < iters t

/-- The thread is between a successful test-and-set and its clear. -/
def Inside {T : Type} (s : State T) (t : T) : Prop := (s.workers t).pc ≠ .lock

section

variable {T : Type} [DecidableEq T]

/-- One step of thread `t`. -/
inductive Step (iters : T → ℕ) (t : T) : State T → State T → Prop
  /-- The flag was set already: spin. -/
  | spin {s : State T} {i : ℕ} (hpc : s.workers t = ⟨i, .lock⟩) (hi : i < iters t)
      (hflag : s.flag = true) : Step iters t s { s with flag := true }
  | acquire {s : State T} {i : ℕ} (hpc : s.workers t = ⟨i, .lock⟩) (hi : i < iters t)
      (hflag : s.flag = false) :
      Step iters t s ⟨true, s.count, Function.update s.workers t ⟨i, .load⟩⟩
  | load {s : State T} {i : ℕ} (hpc : s.workers t = ⟨i, .load⟩) :
      Step iters t s { s with workers := Function.update s.workers t ⟨i, .store s.count⟩ }
  | store {s : State T} {i : ℕ} {r : ℤ} (hpc : s.workers t = ⟨i, .store r⟩) :
      Step iters t s ⟨s.flag, r + 1, Function.update s.workers t ⟨i, .unlock⟩⟩
  | unlock {s : State T} {i : ℕ} (hpc : s.workers t = ⟨i, .unlock⟩) :
      Step iters t s ⟨false, s.count, Function.update s.workers t ⟨i + 1, .lock⟩⟩

/-- All threads at the start of their loops; the lock is `SPINLOCK_INIT`. -/
def system (iters : T → ℕ) (initial : ℤ) : System (State T) T where
  init s := s = ⟨false, initial, fun _ => ⟨0, .lock⟩⟩
  step := Step iters

end

end CExercises.Spinlock
