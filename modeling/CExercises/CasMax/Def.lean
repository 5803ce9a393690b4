import CExercises.Core.Transition
import Mathlib.Data.Int.Notation

/-!
# The atomic maximum

The CAS loop of section 3 of `atomics.c`, run by any number of threads, each on a list of values of
its own.  The load of `maximum` and the compare-exchange are one atomic action each; the test of the
`while` reads only the thread's own `cur`.

A weak compare-exchange may fail although `maximum` still equals `cur`.  It then stores what
`maximum` holds in `cur` like any other failure, so failing is one step that is always possible.
-/

namespace CExercises.CasMax

/-- Where a thread stands in the loop for one of its values. -/
inductive Pc
  /-- Before `cur = atomic_load(&maximum)`. -/
  | load
  /-- At `while (values[i] > cur)`. -/
  | test (cur : ℤ)
  /-- At `atomic_compare_exchange_weak(&maximum, &cur, values[i])`. -/
  | exchange (cur : ℤ)
  deriving DecidableEq

/-- The index of the value a thread is at, and where it stands. -/
structure Worker where
  i : ℕ
  pc : Pc
  deriving DecidableEq

/-- `maximum` and the threads. -/
structure State (T : Type) where
  maximum : ℤ
  workers : T → Worker

/-- The thread has left its loop. -/
def Finished {T : Type} (values : T → List ℤ) (s : State T) (t : T) : Prop :=
  (s.workers t).pc = .load ∧ ¬ (s.workers t).i < (values t).length

/-- The values of a thread whose turn is over. -/
def submitted {T : Type} (values : T → List ℤ) (s : State T) (t : T) : List ℤ :=
  (values t).take (s.workers t).i

section

variable {T : Type} [DecidableEq T]

/-- Thread `t` goes on with `w`, and `maximum` holds `m`. -/
def State.move (s : State T) (t : T) (m : ℤ) (w : Worker) : State T :=
  ⟨m, Function.update s.workers t w⟩

/-- One step of thread `t`, which is at its value `v`. -/
inductive Step (values : T → List ℤ) (t : T) : State T → State T → Prop
  | load {s : State T} {i : ℕ} (hpc : s.workers t = ⟨i, .load⟩) (hi : i < (values t).length) :
      Step values t s (s.move t s.maximum ⟨i, .test s.maximum⟩)
  | again {s : State T} {i : ℕ} {cur v : ℤ} (hpc : s.workers t = ⟨i, .test cur⟩)
      (hv : (values t)[i]? = some v) (hlt : v > cur) :
      Step values t s (s.move t s.maximum ⟨i, .exchange cur⟩)
  /-- `cur` is large enough already. -/
  | leave {s : State T} {i : ℕ} {cur v : ℤ} (hpc : s.workers t = ⟨i, .test cur⟩)
      (hv : (values t)[i]? = some v) (hle : ¬ v > cur) :
      Step values t s (s.move t s.maximum ⟨i + 1, .load⟩)
  | succeed {s : State T} {i : ℕ} {cur v : ℤ} (hpc : s.workers t = ⟨i, .exchange cur⟩)
      (hv : (values t)[i]? = some v) (heq : s.maximum = cur) :
      Step values t s (s.move t v ⟨i + 1, .load⟩)
  /-- The exchange fails, for a reason or spuriously, and `cur` is refreshed. -/
  | fail {s : State T} {i : ℕ} {cur : ℤ} (hpc : s.workers t = ⟨i, .exchange cur⟩) :
      Step values t s (s.move t s.maximum ⟨i, .test s.maximum⟩)

/-- All threads at the start of their loops. -/
def system (values : T → List ℤ) (initial : ℤ) : System (State T) T where
  init s := s = ⟨initial, fun _ => ⟨0, .load⟩⟩
  step := Step values

end

end CExercises.CasMax
