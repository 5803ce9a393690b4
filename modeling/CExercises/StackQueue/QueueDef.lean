import CExercises.Core.CInt
import CExercises.Core.Handle
import CExercises.IntNode

/-!
# The linked FIFO queue

The queue of `stack_queue.c`: a header with `head`, `tail` and `size` over a chain of nodes.  The
three fields are redundant views of one chain.  `queue_is_empty` looks at `size`,
`queue_enqueue` decides by `tail`, `queue_dequeue` follows `head`; none of them checks the other
two, so each function has to leave all three in step.

Dequeuing and peeking at an empty queue end the process with a message.  `size` is an `int`, and a
`size++` that leaves the range stops the model with `.overflow`.

The functions take the header by value.  The last section puts it behind the pointer that a client
holds, and that `queue_free` frees last.
-/

namespace CExercises.StackQueue

/-- `struct Queue`. -/
structure Queue where
  head : Ptr
  tail : Ptr
  size : ℤ
  deriving DecidableEq, Repr

/-- The heap together with the one queue that lives in it. -/
structure QueueState where
  mem : Memory Node
  queue : Queue

/-- `queue_create`: the header comes zeroed from `calloc`. -/
def queueCreate : QueueState := ⟨Memory.empty, ⟨none, none, 0⟩⟩

/-- `queue_is_empty`. -/
def queueIsEmpty (q : Queue) : Bool := q.size == 0

/-- `queue_enqueue`. -/
def queueEnqueue (M : Malloc Node) (s : QueueState) (value : ℤ) : Except Stop QueueState := do
  let (n, m) := nodeCreate M s.mem value
  if s.queue.tail ≠ none then
    let m ← storeNext m s.queue.tail (some n)
    let size ← intSucc s.queue.size
    return ⟨m, ⟨s.queue.head, some n, size⟩⟩
  else
    let size ← intSucc s.queue.size
    return ⟨m, ⟨some n, some n, size⟩⟩

/-- `queue_dequeue`. -/
def queueDequeue (s : QueueState) : Except Stop (ℤ × QueueState) := do
  if queueIsEmpty s.queue then throw (.exit "dequeue on empty queue")
  let old := s.queue.head
  let val ← loadValue s.mem old
  let head ← loadNext s.mem old
  let tail := if head = none then none else s.queue.tail
  let m ← s.mem.free old
  let size ← intPred s.queue.size
  return (val, ⟨m, ⟨head, tail, size⟩⟩)

/-- `queue_peek`. -/
def queuePeek (s : QueueState) : Except Stop ℤ := do
  if queueIsEmpty s.queue then throw (.exit "peek on empty queue")
  loadValue s.mem s.queue.head

/-- `queue_print`. -/
def queuePrint (s : QueueState) : Except Stop String := do
  let shown ← printChain nodeView toString ", " (s.mem.brk + 1) s.mem s.queue.head
  return "head[" ++ shown ++ "]tail  size=" ++ toString s.queue.size ++ "\n"

/-- `while (!queue_is_empty(q)) queue_dequeue(q);` -/
def dequeueAll : ℕ → QueueState → Except Stop (Memory Node)
  | 0, _ => .error .diverges
  | fuel + 1, s => do
      if queueIsEmpty s.queue then return s.mem
      let (_, s) ← queueDequeue s
      dequeueAll fuel s

/-! ## Runs -/

/-- A call on the queue. -/
inductive QueueCall
  | enqueue (value : ℤ)
  | dequeue
  | peek
  deriving DecidableEq, Repr

/-- Carry out one call and report what it returns. -/
def queueCall (M : Malloc Node) (s : QueueState) : QueueCall → Except Stop (QueueState × Option ℤ)
  | .enqueue value => do return (← queueEnqueue M s value, none)
  | .dequeue => do
      let (val, s) ← queueDequeue s
      return (s, some val)
  | .peek => do return (s, some (← queuePeek s))

/-- A client's calls on a queue that starts empty. -/
def queueRun (M : Malloc Node) (cs : List QueueCall) :
    Except Stop (QueueState × List (Option ℤ)) :=
  runCalls (queueCall M) queueCreate cs

/-- The values a client has enqueued, in order. -/
def enqueued : List QueueCall → List ℤ
  | [] => []
  | .enqueue value :: cs => value :: enqueued cs
  | .dequeue :: cs => enqueued cs
  | .peek :: cs => enqueued cs

/-- The values its `dequeue` calls have returned, in order. -/
def dequeued : List QueueCall → List (Option ℤ) → List ℤ
  | .dequeue :: cs, some v :: rets => v :: dequeued cs rets
  | _ :: cs, _ :: rets => dequeued cs rets
  | _, _ => []

/-! ## Behind the pointer -/

/-- The header of a queue, and the nodes it points at. -/
def queueLayout : QueueState ≃ Queue × Memory Node where
  toFun s := (s.queue, s.mem)
  invFun p := ⟨p.2, p.1⟩
  left_inv _ := rfl
  right_inv _ := rfl

/-- `Queue *`. -/
abbrev QueuePtr := Handle Queue (Memory Node)

/-- A client's calls through the pointer that `queue_create` has returned.  `MH` is where headers
are allocated. -/
def queueRunPtr (MH : Malloc Queue) (M : Malloc Node) (cs : List QueueCall) :
    Except Stop (QueuePtr × List (Option ℤ)) :=
  runCalls (Handle.call queueLayout (queueCall M)) (Handle.create queueLayout MH queueCreate) cs

/-- `queue_free`: the nodes, and then the header. -/
def queueFree (q : QueuePtr) : Except Stop QueuePtr :=
  q.free queueLayout fun s => dequeueAll (s.mem.brk + 1) s

end CExercises.StackQueue
