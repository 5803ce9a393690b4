import CExercises.Core.Block

/-!
# The five sorts

`sorting.c` sorts arrays of `int` in five ways.  The functions here work on cells of any type that
are compared by an integer `key`; the source's arrays are the case where the key is the element
itself, and records compared by one field are the case in which stability can be seen.

`for` and `while` loops with a moving index are recursions on that index, and Lean checks that they
end.  Two loops have no such bound and carry a step budget instead, running out of which stops the
program with `.diverges`.

* The loop of `partition` advances `i` by at least one cell each time round, and `i` faults when it
  leaves the block, so the number of cells to the right of `lo` is budget enough.
* `quick_sort_rec` splits where `partition` tells it to.  Its budget is the length of the array.
-/

namespace CExercises.Sorting

section

variable {α : Type} (key : α → ℤ)

/-! ## Bubble sort -/

/-- The inner loop of `bubble_sort`, up to `bound = n - 1 - i`. -/
def bubblePass (bound : ℤ) (arr : Block α) (j : ℤ) (swapped : Bool) :
    Except Stop (Block α × Bool) :=
  if j < bound then do
    let x ← arr.load j
    let y ← arr.load (j + 1)
    if key x > key y then
      let arr ← arr.swap j (j + 1)
      bubblePass bound arr (j + 1) true
    else
      bubblePass bound arr (j + 1) swapped
  else
    return (arr, swapped)
termination_by (bound - j).toNat

/-- The outer loop of `bubble_sort`. -/
def bubbleFrom (n : ℤ) (arr : Block α) (i : ℤ) : Except Stop (Block α) :=
  if i < n - 1 then do
    let (arr, swapped) ← bubblePass key (n - 1 - i) arr 0 false
    -- already sorted
    if !swapped then return arr
    bubbleFrom n arr (i + 1)
  else
    return arr
termination_by (n - 1 - i).toNat

def bubbleSort (arr : Block α) (n : ℤ) : Except Stop (Block α) := bubbleFrom key n arr 0

/-! ## Insertion sort -/

/-- The inner loop of `insertion_sort`: shift larger cells right, from `j` down. -/
def shiftRight (x : α) (arr : Block α) (j : ℤ) : Except Stop (Block α × ℤ) :=
  if 0 ≤ j then do
    let y ← arr.load j
    if key y > key x then
      let arr ← arr.store (j + 1) y
      shiftRight x arr (j - 1)
    else
      return (arr, j)
  else
    return (arr, j)
termination_by (j + 1).toNat

/-- The outer loop of `insertion_sort`. -/
def insertionFrom (n : ℤ) (arr : Block α) (i : ℤ) : Except Stop (Block α) :=
  if i < n then do
    let x ← arr.load i
    let (arr, j) ← shiftRight key x arr (i - 1)
    let arr ← arr.store (j + 1) x
    insertionFrom n arr (i + 1)
  else
    return arr
termination_by (n - i).toNat

def insertionSort (arr : Block α) (n : ℤ) : Except Stop (Block α) := insertionFrom key n arr 1

/-! ## Selection sort -/

/-- The inner loop of `selection_sort`. -/
def minFrom (n : ℤ) (arr : Block α) (minIdx j : ℤ) : Except Stop ℤ :=
  if j < n then do
    let x ← arr.load j
    let y ← arr.load minIdx
    if key x < key y then minFrom n arr j (j + 1)
    else minFrom n arr minIdx (j + 1)
  else
    return minIdx
termination_by (n - j).toNat

/-- The outer loop of `selection_sort`. -/
def selectionFrom (n : ℤ) (arr : Block α) (i : ℤ) : Except Stop (Block α) :=
  if i < n - 1 then do
    let minIdx ← minFrom key n arr i (i + 1)
    if minIdx != i then
      let arr ← arr.swap i minIdx
      selectionFrom n arr (i + 1)
    else
      selectionFrom n arr (i + 1)
  else
    return arr
termination_by (n - 1 - i).toNat

def selectionSort (arr : Block α) (n : ℤ) : Except Stop (Block α) := selectionFrom key n arr 0

end

/-- `lo + (hi - lo) / 2`, with C's division. -/
def midpoint (lo hi : ℤ) : ℤ := lo + (hi - lo).tdiv 2

/-! ## Merge sort -/

section

variable {α : Type} (key : α → ℤ)

/-- `for (k = lo; k <= hi; k++) tmp[k] = arr[k]`. -/
def copyInto (arr : Block α) (hi : ℤ) (tmp : Block α) (k : ℤ) : Except Stop (Block α) :=
  if k ≤ hi then do
    let x ← arr.load k
    let tmp ← tmp.store k x
    copyInto arr hi tmp (k + 1)
  else
    return tmp
termination_by (hi + 1 - k).toNat

/-- The first `while` of `merge`, while both halves last. -/
def mergeBoth (mid hi : ℤ) (tmp arr : Block α) (i j k : ℤ) : Except Stop (Block α × ℤ × ℤ × ℤ) :=
  if i ≤ mid ∧ j ≤ hi then do
    let x ← tmp.load i
    let y ← tmp.load j
    -- `<=` keeps it stable
    if key x ≤ key y then
      let arr ← arr.store k x
      mergeBoth mid hi tmp arr (i + 1) j (k + 1)
    else
      let arr ← arr.store k y
      mergeBoth mid hi tmp arr i (j + 1) (k + 1)
  else
    return (arr, i, j, k)
termination_by (mid + 1 - i).toNat + (hi + 1 - j).toNat

/-- The last two loops of `merge`: `while (i <= last) arr[k++] = tmp[i++]`. -/
def drain (last : ℤ) (tmp arr : Block α) (i k : ℤ) : Except Stop (Block α × ℤ) :=
  if i ≤ last then do
    let x ← tmp.load i
    let arr ← arr.store k x
    drain last tmp arr (i + 1) (k + 1)
  else
    return (arr, k)
termination_by (last + 1 - i).toNat

/-- `merge`, returning the array and the buffer. -/
def merge (arr : Block α) (lo mid hi : ℤ) (tmp : Block α) : Except Stop (Block α × Block α) := do
  let tmp ← copyInto arr hi tmp lo
  let (arr, i, j, k) ← mergeBoth key mid hi tmp arr lo (mid + 1) lo
  let (arr, k) ← drain mid tmp arr i k
  let (arr, _) ← drain hi tmp arr j k
  return (arr, tmp)

/-- The midpoint of two indices lies between them. -/
lemma midpoint_bounds {lo hi : ℤ} (h : lo < hi) : lo ≤ midpoint lo hi ∧ midpoint lo hi < hi := by
  have hdiv : (hi - lo).tdiv 2 = (hi - lo) / 2 := Int.tdiv_eq_ediv_of_nonneg (by omega)
  unfold midpoint
  omega

/-- `merge_sort_rec`. -/
def mergeSortRec (arr : Block α) (lo hi : ℤ) (tmp : Block α) : Except Stop (Block α × Block α) :=
  if lo ≥ hi then return (arr, tmp)
  else do
    let mid := midpoint lo hi
    let (arr, tmp) ← mergeSortRec arr lo mid tmp
    let (arr, tmp) ← mergeSortRec arr (mid + 1) hi tmp
    merge key arr lo mid hi tmp
termination_by (hi - lo).toNat
decreasing_by
  all_goals
    have := midpoint_bounds (not_le.mp ‹¬ lo ≥ hi›)
    omega

/-- `merge_sort`.  The buffer comes from `malloc`; `uninit` is what it happens to hold. -/
def mergeSort (uninit : ℤ → α) (arr : Block α) (n : ℤ) : Except Stop (Block α) := do
  let tmp := Block.ofCells n uninit
  let (arr, _) ← mergeSortRec key arr 0 (n - 1) tmp
  return arr

end

/-! ## Quicksort -/

section

variable {α : Type} (key : α → ℤ)

/-- `if (arr[i] > arr[j]) swap_int(&arr[i], &arr[j])`. -/
def orderCells (arr : Block α) (i j : ℤ) : Except Stop (Block α) := do
  let x ← arr.load i
  let y ← arr.load j
  if key x > key y then arr.swap i j else return arr

/-- `median_of_three`. -/
def medianOfThree (arr : Block α) (lo hi : ℤ) : Except Stop (Block α × ℤ) := do
  let mid := midpoint lo hi
  let arr ← orderCells key arr lo mid
  let arr ← orderCells key arr lo hi
  let arr ← orderCells key arr mid hi
  let arr ← arr.swap mid (hi - 1)
  return (arr, hi - 1)

/-- `while (arr[++i] < pivot) {}`. -/
def scanUp (arr : Block α) (pivot : α) (i : ℤ) : Except Stop ℤ :=
  match h : arr.load (i + 1) with
  | .error e => .error e
  | .ok x => if key x < key pivot then scanUp arr pivot (i + 1) else .ok (i + 1)
termination_by (arr.last - i).toNat
decreasing_by
  have := Block.load_bounds h
  omega

/-- `while (arr[--j] > pivot) {}`. -/
def scanDown (arr : Block α) (pivot : α) (j : ℤ) : Except Stop ℤ :=
  match h : arr.load (j - 1) with
  | .error e => .error e
  | .ok x => if key x > key pivot then scanDown arr pivot (j - 1) else .ok (j - 1)
termination_by (j - arr.first).toNat
decreasing_by
  have := Block.load_bounds h
  omega

/-- `while (1) { ... }` of `partition`. -/
def partitionLoop (pivot : α) : ℕ → Block α → ℤ → ℤ → Except Stop (Block α × ℤ)
  | 0, _, _, _ => .error .diverges
  | fuel + 1, arr, i, j => do
      let i ← scanUp key arr pivot i
      let j ← scanDown key arr pivot j
      if i ≥ j then return (arr, i)
      let arr ← arr.swap i j
      partitionLoop pivot fuel arr i j

/-- `partition`. -/
def partition (arr : Block α) (lo hi : ℤ) : Except Stop (Block α × ℤ) := do
  -- 2 or fewer elements: just sort them
  if hi - lo < 2 then
    let arr ← orderCells key arr lo hi
    return (arr, lo)
  let (arr, pivotIdx) ← medianOfThree key arr lo hi
  let pivot ← arr.load pivotIdx
  let (arr, i) ← partitionLoop key pivot ((arr.last - lo).toNat + 1) arr lo (hi - 1)
  let arr ← arr.swap i pivotIdx
  return (arr, i)

/-- `quick_sort_rec`. -/
def quickSortRec : ℕ → Block α → ℤ → ℤ → Except Stop (Block α)
  | 0, _, _, _ => .error .diverges
  | fuel + 1, arr, lo, hi => do
      if lo ≥ hi then return arr
      let (arr, p) ← partition key arr lo hi
      let arr ← quickSortRec fuel arr lo (p - 1)
      quickSortRec fuel arr (p + 1) hi

/-- `quick_sort`. -/
def quickSort (arr : Block α) (n : ℤ) : Except Stop (Block α) := do
  if n < 2 then return arr
  quickSortRec key (n.toNat + 1) arr 0 (n - 1)

end

/-! ## The table -/

/-- `SortEntry`. -/
structure SortEntry where
  name : String
  fn : Block ℤ → ℤ → Except Stop (Block ℤ)

/-- `sorts[]`. -/
def sorts (uninit : ℤ → ℤ) : List SortEntry :=
  [⟨"bubble_sort", bubbleSort id⟩,
    ⟨"insertion_sort", insertionSort id⟩,
    ⟨"selection_sort", selectionSort id⟩,
    ⟨"merge_sort", mergeSort id uninit⟩,
    ⟨"quick_sort", quickSort id⟩]

end CExercises.Sorting
