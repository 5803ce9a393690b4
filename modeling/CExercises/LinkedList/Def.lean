import CExercises.IntNode
import CExercises.Core.CInt
import CExercises.Core.Handle

/-!
# The singly linked list of integers

`linked_lists.c`: a `List` header with a `head` pointer and a `size` counter, over `malloc`ed
nodes.  Every function is translated statement by statement onto the heap of `Core/Memory.lean`,
so the order of loads and stores, the special cases for the head and the separate updates of
`size` are those of the source.

Loops that follow `next` until `NULL` carry a step budget of `brk + 1`.  A chain that reaches
`NULL` has at most `brk` nodes (`Chain.length_le_brk`), so running out of the budget means that
the walk has come back to a node it had left, and the C loop spins: the result is `.diverges`.

Allocation succeeds: the failing branch, which prints `malloc failed` and ends the process, is left
out.  `size` is an `int`, and a `size++` that leaves the range stops the model with `.overflow`.

The functions take the header by value, with the heap of the nodes.  The last section puts it behind
the pointer that a client holds.
-/

namespace CExercises.LinkedList

/-- `struct List`, the header. -/
structure Header where
  head : Ptr
  size : ℤ
  deriving DecidableEq, Repr

/-- The heap together with the one list that lives in it. -/
structure State where
  mem : Memory Node
  list : Header

/-- `list_create`. -/
def listCreate : State := ⟨Memory.empty, ⟨none, 0⟩⟩

section

variable (M : Malloc Node)

/-- `list_push_front`. -/
def listPushFront (s : State) (value : ℤ) : Except Stop State := do
  let (n, m) := nodeCreate M s.mem value
  let m ← storeNext m (some n) s.list.head
  let size ← intSucc s.list.size
  return ⟨m, ⟨some n, size⟩⟩

/-- `while (cur->next != NULL) cur = cur->next;` -/
def walkToLast (m : Memory Node) : ℕ → Ptr → Except Stop Ptr
  | 0, _ => .error .diverges
  | fuel + 1, cur => do
      let next ← loadNext m cur
      if next = none then return cur
      walkToLast m fuel next

/-- `list_push_back`. -/
def listPushBack (s : State) (value : ℤ) : Except Stop State := do
  let (n, m) := nodeCreate M s.mem value
  if s.list.head = none then
    let size ← intSucc s.list.size
    return ⟨m, ⟨some n, size⟩⟩
  else
    let cur ← walkToLast m (m.brk + 1) s.list.head
    let m ← storeNext m cur (some n)
    let size ← intSucc s.list.size
    return ⟨m, ⟨s.list.head, size⟩⟩

/-- `for (int i = 0; i < k && cur->next != NULL; i++) cur = cur->next;` — the walk shared by
`list_insert_at` and `list_delete_at`, both with `k = index - 1`. -/
def walkAtMost (m : Memory Node) : ℕ → Ptr → Except Stop Ptr
  | 0, cur => return cur
  | k + 1, cur => do
      let next ← loadNext m cur
      if next = none then return cur
      walkAtMost m k next

/-- `n = node_create(value); n->next = cur->next; cur->next = n; list->size++;` — the tail of
`list_insert_at`. -/
def insertAfter (s : State) (cur : Ptr) (value : ℤ) : Except Stop State := do
  let (n, m) := nodeCreate M s.mem value
  let next ← loadNext m cur
  let m ← storeNext m (some n) next
  let m ← storeNext m cur (some n)
  let size ← intSucc s.list.size
  return ⟨m, ⟨s.list.head, size⟩⟩

/-- `list_insert_at`. -/
def listInsertAt (s : State) (index value : ℤ) : Except Stop State := do
  if index ≤ 0 ∨ s.list.head = none then
    listPushFront M s value
  else
    let cur ← walkAtMost s.mem (index - 1).toNat s.list.head
    insertAfter M s cur value

end

/-- `list_pop_front`. -/
def listPopFront (s : State) : Except Stop (ℤ × State) := do
  if s.list.head = none then throw (.exit "pop on empty list")
  let old := s.list.head
  let val ← loadValue s.mem old
  let head ← loadNext s.mem old
  let m ← s.mem.free old
  let size ← intPred s.list.size
  return (val, ⟨m, ⟨head, size⟩⟩)

/-- `while (prev->next != NULL && prev->next->value != value) prev = prev->next;` -/
def walkToBefore (m : Memory Node) (value : ℤ) : ℕ → Ptr → Except Stop Ptr
  | 0, _ => .error .diverges
  | fuel + 1, prev => do
      let next ← loadNext m prev
      if next = none then return prev
      let v ← loadValue m next
      if v = value then return prev
      walkToBefore m value fuel next

/-- `target = prev->next; prev->next = target->next; free(target); list->size--;` — the common
tail of the two delete functions, with their `not found` / `index out of range` return. -/
def unlinkAfter (s : State) (prev : Ptr) : Except Stop State := do
  let target ← loadNext s.mem prev
  if target = none then return s
  let next ← loadNext s.mem target
  let m ← storeNext s.mem prev next
  let m ← m.free target
  let size ← intPred s.list.size
  return ⟨m, ⟨s.list.head, size⟩⟩

/-- `list_delete_value`. -/
def listDeleteValue (s : State) (value : ℤ) : Except Stop State := do
  if s.list.head = none then return s
  let v ← loadValue s.mem s.list.head
  if v = value then
    let (_, s) ← listPopFront s
    return s
  let prev ← walkToBefore s.mem value (s.mem.brk + 1) s.list.head
  unlinkAfter s prev

/-- `list_delete_at`. -/
def listDeleteAt (s : State) (index : ℤ) : Except Stop State := do
  if s.list.head = none ∨ index < 0 then return s
  if index = 0 then
    let (_, s) ← listPopFront s
    return s
  let prev ← walkAtMost s.mem (index - 1).toNat s.list.head
  unlinkAfter s prev

/-- The loop of `list_contains`. -/
def containsFrom (m : Memory Node) (value : ℤ) : ℕ → Ptr → Except Stop ℤ
  | 0, _ => .error .diverges
  | fuel + 1, cur => do
      if cur = none then return 0
      let v ← loadValue m cur
      if v = value then return 1
      let next ← loadNext m cur
      containsFrom m value fuel next

/-- `list_contains`. -/
def listContains (s : State) (value : ℤ) : Except Stop ℤ :=
  containsFrom s.mem value (s.mem.brk + 1) s.list.head

/-- `for (int i = 0; i < index && cur != NULL; i++) cur = cur->next;` — the walk of `list_get`. -/
def walkToIndex (m : Memory Node) : ℕ → Ptr → Except Stop Ptr
  | 0, cur => return cur
  | k + 1, cur => do
      if cur = none then return cur
      let next ← loadNext m cur
      walkToIndex m k next

/-- `list_get`. -/
def listGet (s : State) (index : ℤ) : Except Stop ℤ := do
  let cur ← walkToIndex s.mem index.toNat s.list.head
  if cur = none then throw (.exit "index out of range")
  loadValue s.mem cur

/-- The loop of `list_reverse`: `prev` and `cur` are the source's two cursors. -/
def reverseFrom : ℕ → Memory Node → Ptr → Ptr → Except Stop (Memory Node × Ptr)
  | 0, _, _, _ => .error .diverges
  | fuel + 1, m, prev, cur => do
      if cur = none then return (m, prev)
      let next ← loadNext m cur
      let m ← storeNext m cur prev
      reverseFrom fuel m cur next

/-- `list_reverse`. -/
def listReverse (s : State) : Except Stop State := do
  let (m, prev) ← reverseFrom (s.mem.brk + 1) s.mem none s.list.head
  return ⟨m, ⟨prev, s.list.size⟩⟩

/-- `list_print`. -/
def listPrint (s : State) : Except Stop String := do
  let shown ← printChain nodeView toString " -> " (s.mem.brk + 1) s.mem s.list.head
  return "size=" ++ toString s.list.size ++ "  [" ++ shown ++ "]\n"

/-- The loop of `list_free`. -/
def freeNodes (s : State) : Except Stop (Memory Node) :=
  freeChain nodeView (s.mem.brk + 1) s.mem s.list.head

/-! ## Runs -/

/-- A call of one of the seven functions that change the list. -/
inductive Call
  | pushFront (value : ℤ)
  | pushBack (value : ℤ)
  | insertAt (index value : ℤ)
  | popFront
  | deleteValue (value : ℤ)
  | deleteAt (index : ℤ)
  | reverse
  deriving DecidableEq, Repr

/-- Carry out one call.  `list_pop_front` is the only one that returns a value. -/
def call (M : Malloc Node) (s : State) : Call → Except Stop (State × Option ℤ)
  | .pushFront value => do return (← listPushFront M s value, none)
  | .pushBack value => do return (← listPushBack M s value, none)
  | .insertAt index value => do return (← listInsertAt M s index value, none)
  | .popFront => do
      let (val, s) ← listPopFront s
      return (s, some val)
  | .deleteValue value => do return (← listDeleteValue s value, none)
  | .deleteAt index => do return (← listDeleteAt s index, none)
  | .reverse => do return (← listReverse s, none)

/-- A client's calls on a list that starts empty. -/
def run (M : Malloc Node) (cs : List Call) : Except Stop (State × List (Option ℤ)) :=
  runCalls (call M) listCreate cs

/-! ## Behind the pointer -/

/-- The header of a list, and the nodes it points at. -/
def layout : State ≃ Header × Memory Node where
  toFun s := (s.list, s.mem)
  invFun p := ⟨p.2, p.1⟩
  left_inv _ := rfl
  right_inv _ := rfl

/-- `List *`. -/
abbrev ListPtr := Handle Header (Memory Node)

/-- A client's calls through the pointer that `list_create` has returned.  `MH` is where headers are
allocated. -/
def runPtr (MH : Malloc Header) (M : Malloc Node) (cs : List Call) :
    Except Stop (ListPtr × List (Option ℤ)) :=
  runCalls (Handle.call layout (call M)) (Handle.create layout MH listCreate) cs

/-- `list_free`: the nodes, and then the header. -/
def listFree (list : ListPtr) : Except Stop ListPtr := list.free layout freeNodes

end CExercises.LinkedList
