import CExercises.BinarySearchTree.Def
import CExercises.Core.TreeStore

/-!
# The binary search tree on the heap

`bst.c` once more, now with its pointers: nodes live on the heap of `Core/Memory.lean`, a call may
read and write any of them, `bst_insert` takes its node from `malloc` and `bst_delete` and
`bst_free` give theirs back.  In `Def.lean` a `Node *` was the whole tree below it; whether that is
a fair reading of the source is what `HeapRefinement.lean` shows.

Every function recurses into a child, and carries a budget for the depth of the recursion.  A tree
on the heap is at most as deep as there are nodes (`Owns.depth_le_brk`), so that a call that exceeds
`brk + 1` has followed a cycle of pointers and does not return.
-/

namespace CExercises.BinarySearchTree.Heap

/-- `struct Node`. -/
abbrev Node := TreeNode ℤ

/-- `p->value`. -/
def loadValue (m : Memory Node) (p : Ptr) : Except Stop ℤ := do
  let n ← m.load p
  return n.value

/-- `p->left`. -/
def loadLeft (m : Memory Node) (p : Ptr) : Except Stop Ptr := do
  let n ← m.load p
  return n.left

/-- `p->right`. -/
def loadRight (m : Memory Node) (p : Ptr) : Except Stop Ptr := do
  let n ← m.load p
  return n.right

/-- `p->value = value`. -/
def storeValue (m : Memory Node) (p : Ptr) (value : ℤ) : Except Stop (Memory Node) := do
  let n ← m.load p
  m.store p { n with value := value }

/-- `p->left = q`. -/
def storeLeft (m : Memory Node) (p q : Ptr) : Except Stop (Memory Node) := do
  let n ← m.load p
  m.store p { n with left := q }

/-- `p->right = q`. -/
def storeRight (m : Memory Node) (p q : Ptr) : Except Stop (Memory Node) := do
  let n ← m.load p
  m.store p { n with right := q }

/-- `node_create`. -/
def nodeCreate (M : Malloc Node) (m : Memory Node) (value : ℤ) : ℕ × Memory Node :=
  M.alloc m ⟨value, none, none⟩

/-- `bst_insert`. -/
def bstInsert (M : Malloc Node) : ℕ → Memory Node → Ptr → ℤ → Except Stop (Memory Node × Ptr)
  | 0, _, _, _ => .error .diverges
  | fuel + 1, m, root, value => do
      if root = none then
        let (n, m) := nodeCreate M m value
        return (m, some n)
      let v ← loadValue m root
      if value < v then
        let left ← loadLeft m root
        let (m, left) ← bstInsert M fuel m left value
        let m ← storeLeft m root left
        return (m, root)
      else if value > v then
        let right ← loadRight m root
        let (m, right) ← bstInsert M fuel m right value
        let m ← storeRight m root right
        return (m, root)
      else
        return (m, root)

/-- `bst_free`. -/
def bstFree : ℕ → Memory Node → Ptr → Except Stop (Memory Node)
  | 0, _, _ => .error .diverges
  | fuel + 1, m, root => do
      if root = none then return m
      let left ← loadLeft m root
      let m ← bstFree fuel m left
      let right ← loadRight m root
      let m ← bstFree fuel m right
      m.free root

/-- `bst_search`. -/
def bstSearch : ℕ → Memory Node → Ptr → ℤ → Except Stop Ptr
  | 0, _, _, _ => .error .diverges
  | fuel + 1, m, root, value => do
      if root = none then return root
      let v ← loadValue m root
      if v = value then return root
      if value < v then
        let left ← loadLeft m root
        bstSearch fuel m left value
      else
        let right ← loadRight m root
        bstSearch fuel m right value

/-- `bst_contains`. -/
def bstContains (fuel : ℕ) (m : Memory Node) (root : Ptr) (value : ℤ) : Except Stop ℤ := do
  let p ← bstSearch fuel m root value
  return if p ≠ none then 1 else 0

/-- `bst_min`. -/
def bstMin : ℕ → Memory Node → Ptr → Except Stop Ptr
  | 0, _, _ => .error .diverges
  | fuel + 1, m, root => do
      if root = none then return root
      let left ← loadLeft m root
      if left = none then return root
      bstMin fuel m left

/-- `bst_max`. -/
def bstMax : ℕ → Memory Node → Ptr → Except Stop Ptr
  | 0, _, _ => .error .diverges
  | fuel + 1, m, root => do
      if root = none then return root
      let right ← loadRight m root
      if right = none then return root
      bstMax fuel m right

/-- `bst_delete`. -/
def bstDelete : ℕ → Memory Node → Ptr → ℤ → Except Stop (Memory Node × Ptr)
  | 0, _, _, _ => .error .diverges
  | fuel + 1, m, root, value => do
      if root = none then return (m, none)
      let v ← loadValue m root
      let left ← loadLeft m root
      let right ← loadRight m root
      if value < v then
        let (m, left) ← bstDelete fuel m left value
        let m ← storeLeft m root left
        return (m, root)
      else if value > v then
        let (m, right) ← bstDelete fuel m right value
        let m ← storeRight m root right
        return (m, root)
      -- cases 1 and 2: at most one child
      else if left = none then
        let m ← m.free root
        return (m, right)
      else if right = none then
        let m ← m.free root
        return (m, left)
      -- case 3: `root->right` and `successor->value` are read after `root->value` is written
      else
        let successor ← bstMin fuel m right
        let m ← storeValue m root (← loadValue m successor)
        let right ← loadRight m root
        let (m, right) ← bstDelete fuel m right (← loadValue m successor)
        let m ← storeRight m root right
        return (m, root)

/-- `bst_inorder`. -/
def bstInorder : ℕ → Memory Node → Ptr → Except Stop (List ℤ)
  | 0, _, _ => .error .diverges
  | fuel + 1, m, root => do
      if root = none then return []
      let before ← bstInorder fuel m (← loadLeft m root)
      let v ← loadValue m root
      let after ← bstInorder fuel m (← loadRight m root)
      return before ++ v :: after

/-- `bst_preorder`. -/
def bstPreorder : ℕ → Memory Node → Ptr → Except Stop (List ℤ)
  | 0, _, _ => .error .diverges
  | fuel + 1, m, root => do
      if root = none then return []
      let v ← loadValue m root
      let left ← bstPreorder fuel m (← loadLeft m root)
      let right ← bstPreorder fuel m (← loadRight m root)
      return v :: (left ++ right)

/-- `bst_postorder`. -/
def bstPostorder : ℕ → Memory Node → Ptr → Except Stop (List ℤ)
  | 0, _, _ => .error .diverges
  | fuel + 1, m, root => do
      if root = none then return []
      let left ← bstPostorder fuel m (← loadLeft m root)
      let right ← bstPostorder fuel m (← loadRight m root)
      let v ← loadValue m root
      return left ++ (right ++ [v])

/-- `bst_height`. -/
def bstHeight : ℕ → Memory Node → Ptr → Except Stop ℤ
  | 0, _, _ => .error .diverges
  | fuel + 1, m, root => do
      if root = none then return 0
      let lh ← bstHeight fuel m (← loadLeft m root)
      let rh ← bstHeight fuel m (← loadRight m root)
      intAdd 1 (if lh > rh then lh else rh)

/-- `bst_count`. -/
def bstCount : ℕ → Memory Node → Ptr → Except Stop ℤ
  | 0, _, _ => .error .diverges
  | fuel + 1, m, root => do
      if root = none then return 0
      let left ← bstCount fuel m (← loadLeft m root)
      let right ← bstCount fuel m (← loadRight m root)
      intAdd (← intAdd 1 left) right

/-- `bst_print`. -/
def bstPrint : ℕ → Memory Node → Ptr → ℤ → Except Stop (List Line)
  | 0, _, _, _ => .error .diverges
  | fuel + 1, m, root, depth => do
      if root = none then return []
      let right ← loadRight m root
      let above ← bstPrint fuel m right (← intSucc depth)
      let v ← loadValue m root
      let left ← loadLeft m root
      let below ← bstPrint fuel m left (← intSucc depth)
      return above ++ ⟨depth.toNat, v⟩ :: below

/-! ## Runs -/

/-- The heap, and the client's variable `root`. -/
structure State where
  mem : Memory Node
  root : Ptr

/-- `root = bst_insert(root, value)` or `root = bst_delete(root, value)`. -/
def call (M : Malloc Node) (s : State) : Call → Except Stop State
  | .insert value => do
      let (m, root) ← bstInsert M (s.mem.brk + 1) s.mem s.root value
      return ⟨m, root⟩
  | .delete value => do
      let (m, root) ← bstDelete (s.mem.brk + 1) s.mem s.root value
      return ⟨m, root⟩

/-- A client's calls, from `root = NULL`. -/
def run (M : Malloc Node) (cs : List Call) : Except Stop State :=
  cs.foldlM (call M) ⟨Memory.empty, none⟩

/-- What a client may ask of a tree. -/
inductive Query
  | contains (value : ℤ)
  /-- `bst_min(root)->value`. -/
  | min
  /-- `bst_max(root)->value`. -/
  | max
  | inorder
  | preorder
  | postorder
  | height
  | count
  | print (depth : ℤ)

inductive Answer
  | int (n : ℤ)
  | values (vs : List ℤ)
  | lines (ls : List Line)
  deriving DecidableEq

/-- Ask it on the heap. -/
def ask (s : State) : Query → Except Stop Answer
  | .contains value => do return .int (← bstContains (s.mem.brk + 1) s.mem s.root value)
  | .min => do return .int (← loadValue s.mem (← bstMin (s.mem.brk + 1) s.mem s.root))
  | .max => do return .int (← loadValue s.mem (← bstMax (s.mem.brk + 1) s.mem s.root))
  | .inorder => do return .values (← bstInorder (s.mem.brk + 1) s.mem s.root)
  | .preorder => do return .values (← bstPreorder (s.mem.brk + 1) s.mem s.root)
  | .postorder => do return .values (← bstPostorder (s.mem.brk + 1) s.mem s.root)
  | .height => do return .int (← bstHeight (s.mem.brk + 1) s.mem s.root)
  | .count => do return .int (← bstCount (s.mem.brk + 1) s.mem s.root)
  | .print depth => do return .lines (← bstPrint (s.mem.brk + 1) s.mem s.root depth)

/-- Ask it of a tree. -/
def askTree (t : Tree ℤ) : Query → Except Stop Answer
  | .contains value => .ok (.int (BinarySearchTree.bstContains t value))
  | .min => do return .int (← BinarySearchTree.loadValue (BinarySearchTree.bstMin t))
  | .max => do return .int (← BinarySearchTree.loadValue (BinarySearchTree.bstMax t))
  | .inorder => .ok (.values (BinarySearchTree.bstInorder t))
  | .preorder => .ok (.values (BinarySearchTree.bstPreorder t))
  | .postorder => .ok (.values (BinarySearchTree.bstPostorder t))
  | .height => do return .int (← BinarySearchTree.bstHeight t)
  | .count => do return .int (← BinarySearchTree.bstCount t)
  | .print depth => do return .lines (← BinarySearchTree.bstPrint t depth)

end CExercises.BinarySearchTree.Heap
