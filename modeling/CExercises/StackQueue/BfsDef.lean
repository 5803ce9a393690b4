import CExercises.StackQueue.QueueDef

/-!
# Level order with a queue

`bfs_order` of `stack_queue.c`, on the linked queue of `StackQueue/QueueDef.lean`.  What it prints
is the list of its `printf` calls.  The loop runs with fuel, and says `.diverges` when that runs
out.  The queue is a local of the function, so its header is carried by value, and what is left of
`queue_free` at the end is the loop over the nodes.
-/

namespace CExercises.StackQueue

/-- `"level %d: "`, `"%d "` and `"\n"`. -/
inductive Printed
  | level (level : ℤ)
  | node (node : ℤ)
  | newline
  deriving DecidableEq

/-- The local variables of `bfs_order`, and what has been printed. -/
structure BfsState where
  q : QueueState
  level : ℤ
  inLevel : ℤ
  printed : ℤ
  out : List Printed

/-- `if (child <= n) queue_enqueue(q, child);`. -/
def enqueueChild (M : Malloc Node) (n : ℤ) (q : QueueState) (child : ℤ) : Except Stop QueueState :=
  if child ≤ n then queueEnqueue M q child else return q

/-- The body of the loop. -/
def bfsPass (M : Malloc Node) (n : ℤ) (s : BfsState) : Except Stop BfsState := do
  let (node, q) ← queueDequeue s.q
  let out := s.out ++ [.node node]
  let printed ← intSucc s.printed
  let left ← intMul 2 node
  let double ← intMul 2 node
  let right ← intAdd double 1
  let q ← enqueueChild M n q left
  let q ← enqueueChild M n q right
  if printed = s.inLevel ∧ queueIsEmpty q.queue = false then
    let level ← intSucc s.level
    return { q := q, level := level, inLevel := q.queue.size, printed := 0,
             out := out ++ [.newline, .level level] }
  else return { s with q := q, printed := printed, out := out }

/-- `while (!queue_is_empty(q))`. -/
def bfsLoop (M : Malloc Node) (n : ℤ) : ℕ → BfsState → Except Stop BfsState
  | 0, _ => .error .diverges
  | fuel + 1, s => do
      if queueIsEmpty s.q.queue then return s
      let s ← bfsPass M n s
      bfsLoop M n fuel s

/-- `bfs_order`: what it prints. -/
def bfsOrder (M : Malloc Node) (fuel : ℕ) (n : ℤ) : Except Stop (List Printed) := do
  let q ← queueEnqueue M queueCreate 1
  let s ← bfsLoop M n fuel { q := q, level := 0, inLevel := 1, printed := 0, out := [.level 0] }
  let _ ← dequeueAll fuel s.q
  return s.out ++ [.newline]

end CExercises.StackQueue
