import CExercises.Core.Lifo
import CExercises.Core.Transition
import CExercises.IntNode

/-!
# The lock-free stack

`lf_push` and `lf_pop` of `atomics.c`, run by any number of threads.  Every access to shared memory
is a step of its own: the atomic load of `head`, the plain write and the plain read of a `next`
field, and the compare-exchange.  Memory is sequentially consistent.  A weak compare-exchange may
fail even when `head` holds the expected pointer, so failing is always possible; after a failure
both loops load `head` afresh, and what the failed call left in `old_head` is not used.

Node identifiers are addresses of nodes the client has allocated.  The client's side of the bargain
is in `invokePush`: a node is passed to `lf_push` once, and it is not freed.  This is what excludes
the ABA problem that the source describes and does not fix.

`history` is not in the program.  It records each operation at the step at which it takes effect:
the successful compare-exchange, or the load that finds the stack empty.
-/

namespace CExercises.TreiberStack

/-- Where a thread stands.  `idle` is between two calls. -/
inductive Pc
  | idle
  | pushLoad (node : ℕ)
  | pushWrite (node : ℕ) (oldHead : Ptr)
  | pushCas (node : ℕ) (oldHead : Ptr)
  | popLoad
  | popNext (oldHead : ℕ)
  | popCas (oldHead : ℕ) (newHead : Ptr)
  deriving DecidableEq

/-- `LFStack`, the nodes, the threads; `given` are the nodes passed to `lf_push` so far. -/
structure State (T : Type) where
  head : Ptr
  nodes : ℕ → Node
  pc : T → Pc
  given : List ℕ
  history : List (StackEvent ℕ)

section

variable {T : Type} [DecidableEq T]

/-- The same state with thread `t` at `pc`. -/
def State.goto (s : State T) (t : T) (pc : Pc) : State T :=
  { s with pc := Function.update s.pc t pc }

/-- An operation takes effect. -/
def State.record (s : State T) (e : StackEvent ℕ) : State T :=
  { s with history := s.history ++ [e] }

/-- `node->next = p`. -/
def State.writeNext (s : State T) (node : ℕ) (p : Ptr) : State T :=
  { s with nodes := Function.update s.nodes node { s.nodes node with next := p } }

/-- One step of thread `t`. -/
inductive Step (t : T) : State T → State T → Prop
  | invokePush {s : State T} {node : ℕ} (hpc : s.pc t = .idle) (hnew : node ∉ s.given) :
      Step t s { s.goto t (.pushLoad node) with given := node :: s.given }
  | pushLoad {s : State T} {node : ℕ} (hpc : s.pc t = .pushLoad node) :
      Step t s (s.goto t (.pushWrite node s.head))
  | pushWrite {s : State T} {node : ℕ} {oldHead : Ptr} (hpc : s.pc t = .pushWrite node oldHead) :
      Step t s ((s.writeNext node oldHead).goto t (.pushCas node oldHead))
  | pushDone {s : State T} {node : ℕ} {oldHead : Ptr} (hpc : s.pc t = .pushCas node oldHead)
      (hcas : s.head = oldHead) :
      Step t s (({ s with head := some node }.record (.pushed node)).goto t .idle)
  | pushRetry {s : State T} {node : ℕ} {oldHead : Ptr} (hpc : s.pc t = .pushCas node oldHead) :
      Step t s (s.goto t (.pushLoad node))
  | invokePop {s : State T} (hpc : s.pc t = .idle) : Step t s (s.goto t .popLoad)
  | popEmpty {s : State T} (hpc : s.pc t = .popLoad) (hload : s.head = none) :
      Step t s ((s.record .foundEmpty).goto t .idle)
  | popLoad {s : State T} {oldHead : ℕ} (hpc : s.pc t = .popLoad) (hload : s.head = some oldHead) :
      Step t s (s.goto t (.popNext oldHead))
  | popNext {s : State T} {oldHead : ℕ} (hpc : s.pc t = .popNext oldHead) :
      Step t s (s.goto t (.popCas oldHead (s.nodes oldHead).next))
  | popDone {s : State T} {oldHead : ℕ} {newHead : Ptr} (hpc : s.pc t = .popCas oldHead newHead)
      (hcas : s.head = some oldHead) :
      Step t s (({ s with head := newHead }.record (.popped oldHead)).goto t .idle)
  | popRetry {s : State T} {oldHead : ℕ} {newHead : Ptr} (hpc : s.pc t = .popCas oldHead newHead) :
      Step t s (s.goto t .popLoad)

/-- All threads idle on an empty stack; the nodes hold anything. -/
def system (T : Type) [DecidableEq T] : System (State T) T where
  init s := ∃ nodes, s = ⟨none, nodes, fun _ => .idle, [], []⟩
  step := Step

end

/-- The nodes as a chain sees them. -/
def view (nodes : ℕ → Node) (n : ℕ) : Option (ℤ × Ptr) := some (nodeView (nodes n))

end CExercises.TreiberStack
