import CExercises.Core.Transition
import Mathlib.Data.Int.Notation

/-!
# The resource pool

Section 4 of `semaphores.c`: workers that share `POOL_SIZE` resources behind a counting semaphore.
The semaphore is its value.  `sem_wait` lowers it, and blocks while it is 0; `sem_post` raises it
and never blocks.  Which of the blocked workers gets a resource is left open.

What the workers print is part of the state, because it is what a user of the program sees of them.
-/

namespace CExercises.Semaphores

/-- Where a worker stands. -/
inductive Pc
  /-- In `sem_wait`, or before it. -/
  | waiting
  /-- With a resource, which it has not announced. -/
  | acquired
  | working
  /-- With a resource, which it has announced to give back. -/
  | releasing
  | done
  deriving DecidableEq

/-- The two lines of a worker: `worker %d: using resource` and `worker %d: releasing`. -/
inductive Line
  | uses
  | releases
  deriving DecidableEq

/-- `g_pool`, the workers, and the output. -/
structure State (W : Type) where
  value : ℕ
  pc : W → Pc
  out : List (W × Line)

section

variable {W : Type} [DecidableEq W]

/-- One step of `worker`. -/
inductive Step (w : W) : State W → State W → Prop
  /-- `sem_wait` -/
  | wait {s : State W} {v : ℕ} (hpc : s.pc w = .waiting) (hvalue : s.value = v + 1) :
      Step w s { s with value := v, pc := Function.update s.pc w .acquired }
  | use {s : State W} (hpc : s.pc w = .acquired) :
      Step w s { s with pc := Function.update s.pc w .working, out := s.out ++ [(w, .uses)] }
  | release {s : State W} (hpc : s.pc w = .working) :
      Step w s { s with
        pc := Function.update s.pc w .releasing, out := s.out ++ [(w, .releases)] }
  /-- `sem_post` -/
  | post {s : State W} (hpc : s.pc w = .releasing) :
      Step w s { s with value := s.value + 1, pc := Function.update s.pc w .done }

/-- `section4_counting` with any workers and any size of the pool. -/
def pool (size : ℕ) : System (State W) W where
  init s := s = ⟨size, fun _ => .waiting, []⟩
  step := Step

end

end CExercises.Semaphores
