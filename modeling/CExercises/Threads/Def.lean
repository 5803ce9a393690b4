import CExercises.Core.Locks
import Mathlib.Data.Int.Notation
import Mathlib.Data.Fintype.Defs

/-!
# Threads that count and threads that lock

Sections 2, 3 and 6 of `threads.c` and section 2 of `atomics.c`, with any number of threads.

* `safe_order` takes two mutexes, always in the same order.
* `safe_inc` increments a counter under a mutex, `safe_worker` with an atomic instruction, and
  `unsafe_inc` with neither.

An increment that is not atomic is a load and a store.  For `unsafe_inc` that is a reading of the
source's own account, "LOAD, ADD, STORE"; C itself leaves a data race undefined.  The counters are
integers here and a `long` in the source, which has room for 2^63 - 1 increments from 0; more are not
considered.
-/

namespace CExercises.Threads

/-! ## Two mutexes -/

/-- `lock_a` and `lock_b`. -/
inductive Lock
  | a
  | b
  deriving DecidableEq

instance : Fintype Lock where
  elems := {.a, .b}
  complete := fun l => by cases l <;> simp

def Lock.rank : Lock → ℕ
  | .a => 0
  | .b => 1

lemma Lock.rank_injective : Function.Injective Lock.rank := by
  intro l l' h
  cases l <;> cases l' <;> first | rfl | cases h

/-- The global order of the locks: `lock_a` first. -/
instance : PartialOrder Lock := PartialOrder.lift Lock.rank Lock.rank_injective

/-- `printf("  thread %d: holds A and B\n", id)`. -/
def printLine (id : ℤ) (out : List ℤ) : List ℤ := out ++ [id]

/-- `safe_order`. -/
def safeOrder (id : ℤ) : List (LockOp Lock ℤ) :=
  [.lock .a, .lock .b, .act id, .unlock .b, .unlock .a]

/-- Threads that run `safe_order`, each with its own argument. -/
def orderSystem {T : Type} [DecidableEq T] (ids : T → ℤ) :
    System (LockState T Lock ℤ (List ℤ)) T :=
  lockSystem printLine [] fun t => safeOrder (ids t)

/-! ## One counter -/

/-- The counter, and the register in which a thread has it. -/
structure Counter (T : Type) where
  count : ℤ
  reg : T → ℤ

/-- What is done to a counter. -/
inductive CountOp (T : Type)
  | load (t : T)
  | store (t : T)

section

variable {T : Type} [DecidableEq T]

def countExec : CountOp T → Counter T → Counter T
  | .load t, c => { c with reg := Function.update c.reg t c.count }
  | .store t, c => { c with count := c.reg t + 1 }

/-- `g_count++`. -/
def increment (t : T) : List (CountOp T) := [.load t, .store t]

/-- `safe_inc`, with `g_mutex`. -/
def safeInc (iters : ℕ) (t : T) : List (LockOp Unit (CountOp T)) :=
  (List.replicate iters (increment t)).flatMap (critical ())

/-- `unsafe_inc`, called `unsafe_worker` in `atomics.c`. -/
def unsafeInc (iters : ℕ) (t : T) : List (LockOp Unit (CountOp T)) :=
  (List.replicate iters (increment t)).flatMap fun sec => sec.map .act

/-- Threads that work on one counter. -/
def counterSystem (initial : ℤ) (prog : T → List (LockOp Unit (CountOp T))) :
    System (LockState T Unit (CountOp T) (Counter T)) T :=
  lockSystem countExec ⟨initial, fun _ => 0⟩ prog

/-- `atomic_fetch_add_explicit(&g_safe, 1, memory_order_relaxed)`, of which the old value is not
used. -/
def fetchAdd (_ : Unit) (count : ℤ) : ℤ := count + 1

/-- `safe_worker`. -/
def safeWorker (iters : ℕ) : List (LockOp Unit Unit) := List.replicate iters (.act ())

/-- Threads that work on one atomic counter. -/
def atomicSystem (initial : ℤ) (iters : T → ℕ) : System (LockState T Unit Unit ℤ) T :=
  lockSystem fetchAdd initial fun t => safeWorker (iters t)

end

end CExercises.Threads
