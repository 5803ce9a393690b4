import CExercises.Core.CInt
import CExercises.Core.Realloc
import CExercises.Core.Refinement

/-!
# A growing array of `int`s

`IntVec`, `vec_create` and `vec_push` of `memory.c`.  Whether an allocation succeeds, and what the
memory it hands out held before, is decided outside: `none` is a failure.  The sizes passed to
`malloc` and `realloc` are `int`s times `sizeof(int)` in `size_t`, which does not wrap for a
capacity that is not negative, so that a block of `n * sizeof(int)` bytes is one of `n` cells.
-/

namespace CExercises.DynamicArray

/-- `IntVec`. -/
structure IntVec where
  data : Block ℤ
  size : ℤ
  capacity : ℤ

/-- `vec_create`.  `vec` and `data` are the answers to its two `malloc`s. -/
def vecCreate (initialCapacity : ℤ) (vec : Option Unit) (data : Option (ℤ → ℤ)) : Option IntVec :=
  match vec with
  | none => none
  | some () =>
      match data with
      | none => none
      | some fresh =>
          some { data := Block.ofCells initialCapacity fresh
                 size := 0
                 capacity := initialCapacity }

/-- `v->data[v->size++] = value;`. -/
def vecStore (v : IntVec) (value : ℤ) : Except Stop IntVec := do
  let size ← intSucc v.size
  let data ← v.data.store v.size value
  return { v with data := data, size := size }

/-- `vec_push`: the vector and the line on `stderr`.  `tmp` is the answer to `realloc`. -/
def vecPush (v : IntVec) (value : ℤ) (tmp : Option (ℤ → ℤ)) :
    Except Stop (IntVec × Option String) := do
  if v.size = v.capacity then
    let newCap ← intMul v.capacity 2
    match tmp with
    | none => return (v, some "vec_push: realloc failed")
    | some fresh =>
        let v := { v with data := realloc (some v.data) newCap fresh, capacity := newCap }
        let v ← vecStore v value
        return (v, none)
  else
    let v ← vecStore v value
    return (v, none)

/-! ## Runs -/

/-- A value, and what is in the memory that `realloc` adds, should the push call it. -/
structure Push where
  value : ℤ
  fresh : ℤ → ℤ

/-- A push whose `realloc` succeeds. -/
def push (v : IntVec) (p : Push) : Except Stop (IntVec × Option String) :=
  vecPush v p.value (some p.fresh)

/-- A client's pushes on the vector that `vec_create` returns; `NULL` faults at the first. -/
def pushAll (v : Option IntVec) (ps : List Push) : Except Stop (IntVec × List (Option String)) :=
  match v with
  | none => .error .nullDeref
  | some v => runCalls push v ps

end CExercises.DynamicArray
