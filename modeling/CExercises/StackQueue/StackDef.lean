import CExercises.Core.CInt
import CExercises.Core.Handle
import CExercises.IntNode

/-!
# The linked stack

The stack of `stack_queue.c`: a header with `top` and `size`.  As in the queue the two fields are
views of one chain that are never compared, and `stack_free` relies on both of them: `size` decides
when to stop, `top` what to give back.  A `size++` that leaves the range of `int` stops the model
with `.overflow`.

As for the queue the functions take the header by value, and the last section puts it behind the
pointer.
-/

namespace CExercises.StackQueue

/-- `struct Stack`. -/
structure Stack where
  top : Ptr
  size : ℤ
  deriving DecidableEq, Repr

/-- The heap together with the one stack that lives in it. -/
structure StackState where
  mem : Memory Node
  stack : Stack

/-- `stack_create`: the header comes zeroed from `calloc`. -/
def stackCreate : StackState := ⟨Memory.empty, ⟨none, 0⟩⟩

/-- `stack_is_empty`. -/
def stackIsEmpty (s : Stack) : Bool := s.size == 0

/-- `stack_push`. -/
def stackPush (M : Malloc Node) (s : StackState) (value : ℤ) : Except Stop StackState := do
  let (n, m) := nodeCreate M s.mem value
  let m ← storeNext m (some n) s.stack.top
  let size ← intSucc s.stack.size
  return ⟨m, ⟨some n, size⟩⟩

/-- `stack_pop`. -/
def stackPop (s : StackState) : Except Stop (ℤ × StackState) := do
  if stackIsEmpty s.stack then throw (.exit "pop on empty stack")
  let old := s.stack.top
  let val ← loadValue s.mem old
  let top ← loadNext s.mem old
  let m ← s.mem.free old
  let size ← intPred s.stack.size
  return (val, ⟨m, ⟨top, size⟩⟩)

/-- `stack_peek`. -/
def stackPeek (s : StackState) : Except Stop ℤ := do
  if stackIsEmpty s.stack then throw (.exit "peek on empty stack")
  loadValue s.mem s.stack.top

/-- `stack_print`. -/
def stackPrint (s : StackState) : Except Stop String := do
  let shown ← printChain nodeView toString ", " (s.mem.brk + 1) s.mem s.stack.top
  return "top[" ++ shown ++ "]  size=" ++ toString s.stack.size ++ "\n"

/-- `while (!stack_is_empty(s)) stack_pop(s);` -/
def popAll : ℕ → StackState → Except Stop (Memory Node)
  | 0, _ => .error .diverges
  | fuel + 1, s => do
      if stackIsEmpty s.stack then return s.mem
      let (_, s) ← stackPop s
      popAll fuel s

/-! ## Runs -/

/-- A call on the stack. -/
inductive StackCall
  | push (value : ℤ)
  | pop
  | peek
  | isEmpty
  | print
  deriving DecidableEq, Repr

/-- What a call returns, or what it prints. -/
inductive Ret
  | unit
  | int (v : ℤ)
  | text (t : String)
  deriving DecidableEq, Repr

/-- Carry out one call. -/
def stackCall (M : Malloc Node) (s : StackState) : StackCall → Except Stop (StackState × Ret)
  | .push value => do return (← stackPush M s value, .unit)
  | .pop => do
      let (val, s) ← stackPop s
      return (s, .int val)
  | .peek => do return (s, .int (← stackPeek s))
  | .isEmpty => return (s, .int (if stackIsEmpty s.stack then 1 else 0))
  | .print => do return (s, .text (← stackPrint s))

/-! ## Behind the pointer -/

/-- The header of a stack, and the nodes it points at. -/
def stackLayout : StackState ≃ Stack × Memory Node where
  toFun s := (s.stack, s.mem)
  invFun p := ⟨p.2, p.1⟩
  left_inv _ := rfl
  right_inv _ := rfl

/-- `Stack *`. -/
abbrev StackPtr := Handle Stack (Memory Node)

/-- A client's calls through the pointer that `stack_create` has returned.  `MH` is where headers
are allocated. -/
def stackRunPtr (MH : Malloc Stack) (M : Malloc Node) (cs : List StackCall) :
    Except Stop (StackPtr × List Ret) :=
  runCalls (Handle.call stackLayout (stackCall M)) (Handle.create stackLayout MH stackCreate) cs

/-- `stack_free`: the nodes, and then the header. -/
def stackFree (s : StackPtr) : Except Stop StackPtr :=
  s.free stackLayout fun s => popAll (s.mem.brk + 1) s

end CExercises.StackQueue
