import CExercises.Core.CInt
import CExercises.Core.Realloc
import CExercises.Core.Refinement

/-!
# A growing array of elements of any type

`GenVec`, `genvec_new`, `genvec_push` and `genvec_get` of `generics.c`.  An element is `esize`
bytes, and the backing array is a block of bytes.  `size_t` is arithmetic modulo `2 ^ 64`.

Whether `realloc` succeeds, and what the memory it adds held before, is decided outside: `none` is a
failure.  The pointer that `genvec_get` returns is an offset from `v->data`.
-/

namespace CExercises.DynamicArray

/-- `GenVec`; a `data` of `none` is `NULL`. -/
structure GenVec where
  data : Option (Block UInt8)
  len : ℕ
  cap : ℕ
  esize : ℕ

/-- `genvec_new`. -/
def genvecNew (elementSize : ℕ) : GenVec :=
  { data := none, len := 0, cap := 0, esize := elementSize }

/-- `memcpy(dst + off, src, n)`. -/
def memcpy (dst : Option (Block UInt8)) (off : ℤ) (src : List UInt8) (n : ℕ) :
    Except Stop (Block UInt8) :=
  match dst with
  | none => .error .nullDeref
  | some b => if src.length < n then .error .outOfBounds else b.storeAll off (src.take n)

/-- `newcap`. -/
def newcap (v : GenVec) : ℕ := if v.cap ≠ 0 then v.cap * 2 % sizeMod else 4

/-- The end of `genvec_push`: copy the element behind the others. -/
def genvecAppend (v : GenVec) (elem : List UInt8) : Except Stop (GenVec × ℤ) := do
  let data ← memcpy v.data (v.len * v.esize % sizeMod : ℕ) elem v.esize
  return ({ v with data := some data, len := (v.len + 1) % sizeMod }, 0)

/-- `genvec_push`.  `p` is the answer to `realloc`. -/
def genvecPush (v : GenVec) (elem : List UInt8) (p : Option (ℤ → UInt8)) :
    Except Stop (GenVec × ℤ) :=
  if v.len = v.cap then
    match p with
    | none => return (v, -1)
    | some fresh =>
        let bytes := newcap v * v.esize % sizeMod
        genvecAppend { v with data := some (realloc v.data bytes fresh), cap := newcap v } elem
  else genvecAppend v elem

/-- `genvec_get`. -/
def genvecGet (v : GenVec) (i : ℕ) : Option ℕ :=
  if i ≥ v.len then none else some (i * v.esize % sizeMod)

/-! ## Runs -/

/-- A push, with the answer to its `realloc` should it call it. -/
structure PushOf where
  elem : List UInt8
  answer : Option (ℤ → UInt8)

/-- The call of `genvec_push`. -/
def genvecCall (v : GenVec) (p : PushOf) : Except Stop (GenVec × ℤ) := genvecPush v p.elem p.answer

/-- The bytes that a push of a full vector asks for, as a number. -/
def byteCount (v : GenVec) : ℕ := (if v.cap ≠ 0 then v.cap * 2 else 4) * v.esize

/-- Every byte count that a run asks for is below `2 ^ 64`. -/
def BytesFit : GenVec → List PushOf → Prop
  | _, [] => True
  | v, p :: ps =>
      (v.len = v.cap → byteCount v < sizeMod)
        ∧ ∀ v' ret, genvecCall v p = .ok (v', ret) → BytesFit v' ps

/-- The elements whose push returned `0`. -/
def kept : List PushOf → List ℤ → List (List UInt8)
  | p :: ps, ret :: rets => if ret = 0 then p.elem :: kept ps rets else kept ps rets
  | _, _ => []

end CExercises.DynamicArray
