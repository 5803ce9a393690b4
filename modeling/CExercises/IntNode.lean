import CExercises.Core.Live

/-!
# The integer node

`linked_lists.c`, `stack_queue.c` and `atomics.c` all link the same node, an `int` and a `next`
pointer.  Here are its accesses as the source writes them, and for each what it does to the heap
seen as a set of chains.
-/

namespace CExercises

/-- `struct Node`. -/
structure Node where
  value : ℤ
  next : Ptr
  deriving DecidableEq, Repr

/-- What a node shows to a chain. -/
def nodeView (n : Node) : ℤ × Ptr := (n.value, n.next)

/-- `p->next`. -/
def loadNext (m : Memory Node) (p : Ptr) : Except Stop Ptr := do
  let n ← m.load p
  return n.next

/-- `p->value`. -/
def loadValue (m : Memory Node) (p : Ptr) : Except Stop ℤ := do
  let n ← m.load p
  return n.value

/-- `p->next = q`. -/
def storeNext (m : Memory Node) (p q : Ptr) : Except Stop (Memory Node) := do
  let n ← m.load p
  m.store p { n with next := q }

/-- `node_create`, called `node_new` in `stack_queue.c`. -/
def nodeCreate (M : Malloc Node) (m : Memory Node) (value : ℤ) : ℕ × Memory Node :=
  M.alloc m ⟨value, none⟩

section

variable {m : Memory Node} {a : ℕ} {v : ℤ} {p : Ptr}

lemma loadNext_eq (h : m.view nodeView a = some (v, p)) : loadNext m (some a) = .ok p := by
  rcases Memory.load_of_view h with ⟨n, hn, hv⟩
  cases hv
  simp [loadNext, hn]

lemma loadValue_eq (h : m.view nodeView a = some (v, p)) : loadValue m (some a) = .ok v := by
  rcases Memory.load_of_view h with ⟨n, hn, hv⟩
  cases hv
  simp [loadValue, hn]

lemma storeNext_eq (h : m.view nodeView a = some (v, p)) (q : Ptr) :
    ∃ m', storeNext m (some a) q = .ok m'
      ∧ m'.view nodeView = Function.update (m.view nodeView) a (some (v, q))
      ∧ m'.brk = m.brk := by
  rcases Memory.load_of_view h with ⟨n, hn, hv⟩
  rcases Memory.store_of_view h { n with next := q } with ⟨m', hm', hview, hbrk⟩
  cases hv
  exact ⟨m', by simp [storeNext, hn, hm'], hview, hbrk⟩

lemma nodeCreate_fst (M : Malloc Node) : (nodeCreate M m v).1 = M.place m := rfl

lemma nodeCreate_view (M : Malloc Node) :
    (nodeCreate M m v).2.view nodeView
      = Function.update (m.view nodeView) (M.place m) (some (v, none)) := by
  simp [nodeCreate, nodeView]

lemma blocks_storeNext {m' : Memory Node} {q : Ptr} (h : storeNext m p q = .ok m') :
    m'.blocks = m.blocks := by
  obtain ⟨n, _, h⟩ := bind_eq_ok.mp h
  exact Memory.blocks_store h

lemma blocks_nodeCreate (M : Malloc Node) (v : ℤ) :
    (nodeCreate M m v).2.blocks = m.blocks + 1 := M.blocks_alloc m _

end

end CExercises
