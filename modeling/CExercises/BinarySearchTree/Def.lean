import CExercises.Core.BinaryTree
import CExercises.Core.CInt

/-!
# The binary search tree

`bst.c`.  Every function takes the root of a tree and recurses into its children, and no node is
ever shared between two trees; a `Node *` is therefore the whole tree below it, and a function that
returns a node returns the subtree at that node.  What the traversals print is the list of the
values in the order of the `printf` calls; what `bst_print` prints is a list of lines.

`bst_delete` reads `successor->value`, which faults when `successor` is `NULL`.  The read is kept,
and with it the possibility to stop; `bstDelete_spec` shows that it never happens.  The sums of
`bst_height`, `bst_count` and `bst_print` are `int`s, and a sum that leaves the range stops the model
with `.overflow`.
-/

namespace CExercises.BinarySearchTree

open CExercises.Tree

/-- `root->value`. -/
def loadValue : Tree ℤ → Except Stop ℤ
  | .nil => .error .nullDeref
  | .node v _ _ => .ok v

/-- `node_create`. -/
def nodeCreate (value : ℤ) : Tree ℤ := .node value .nil .nil

/-- `bst_insert`. -/
def bstInsert : Tree ℤ → ℤ → Tree ℤ
  | .nil, value => nodeCreate value
  | .node v l r, value =>
      if value < v then .node v (bstInsert l value) r
      else if value > v then .node v l (bstInsert r value)
      -- duplicate values are ignored
      else .node v l r

/-- `bst_search`. -/
def bstSearch : Tree ℤ → ℤ → Tree ℤ
  | .nil, _ => .nil
  | .node v l r, value =>
      if v = value then .node v l r
      else if value < v then bstSearch l value
      else bstSearch r value

/-- `bst_contains`. -/
def bstContains (root : Tree ℤ) (value : ℤ) : ℤ := if bstSearch root value ≠ .nil then 1 else 0

/-- `bst_min`: the leftmost node. -/
def bstMin : Tree ℤ → Tree ℤ
  | .nil => .nil
  | .node v l r => if l = .nil then .node v l r else bstMin l

/-- `bst_max`: the rightmost node. -/
def bstMax : Tree ℤ → Tree ℤ
  | .nil => .nil
  | .node v l r => if r = .nil then .node v l r else bstMax r

/-- `bst_delete`. -/
def bstDelete : Tree ℤ → ℤ → Except Stop (Tree ℤ)
  | .nil, _ => .ok .nil
  | .node v l r, value =>
      if value < v then do
        let l ← bstDelete l value
        return .node v l r
      else if value > v then do
        let r ← bstDelete r value
        return .node v l r
      -- cases 1 and 2: at most one child
      else if l = .nil then .ok r
      else if r = .nil then .ok l
      -- case 3: the in-order successor takes the place of the value
      else do
        let successor ← loadValue (bstMin r)
        let r ← bstDelete r successor
        return .node successor l r

/-- `bst_inorder`. -/
def bstInorder : Tree ℤ → List ℤ
  | .nil => []
  | .node v l r => bstInorder l ++ v :: bstInorder r

/-- `bst_preorder`. -/
def bstPreorder : Tree ℤ → List ℤ
  | .nil => []
  | .node v l r => v :: (bstPreorder l ++ bstPreorder r)

/-- `bst_postorder`. -/
def bstPostorder : Tree ℤ → List ℤ
  | .nil => []
  | .node v l r => bstPostorder l ++ (bstPostorder r ++ [v])

/-- `bst_height`. -/
def bstHeight : Tree ℤ → Except Stop ℤ
  | .nil => return 0
  | .node _ l r => do
      let lh ← bstHeight l
      let rh ← bstHeight r
      intAdd 1 (if lh > rh then lh else rh)

/-- `bst_count`. -/
def bstCount : Tree ℤ → Except Stop ℤ
  | .nil => return 0
  | .node _ l r => do
      let left ← bstCount l
      let right ← bstCount r
      intAdd (← intAdd 1 left) right

/-- A line of `bst_print`: how many times it is indented, and the value. -/
structure Line where
  indent : ℕ
  value : ℤ
  deriving DecidableEq, Repr

/-- `bst_print`.  The loop over `i < depth` prints no blanks for a negative `depth`. -/
def bstPrint : Tree ℤ → ℤ → Except Stop (List Line)
  | .nil, _ => .ok []
  | .node v l r, depth => do
      let above ← bstPrint r (← intSucc depth)
      let below ← bstPrint l (← intSucc depth)
      return above ++ ⟨depth.toNat, v⟩ :: below

/-! ## Runs -/

/-- A call whose result the client assigns back to `root`. -/
inductive Call
  | insert (value : ℤ)
  | delete (value : ℤ)
  deriving DecidableEq

/-- `root = bst_insert(root, value)` or `root = bst_delete(root, value)`. -/
def call (root : Tree ℤ) : Call → Except Stop (Tree ℤ)
  | .insert value => .ok (bstInsert root value)
  | .delete value => bstDelete root value

/-- A client's calls on a tree that starts as `NULL`. -/
def run (cs : List Call) : Except Stop (Tree ℤ) := cs.foldlM call .nil

end CExercises.BinarySearchTree
