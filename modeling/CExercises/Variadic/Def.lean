import CExercises.Core.Block
import CExercises.Core.CString

/-!
# Joining strings

`join` of `variadic.c`, which walks its arguments twice: once to measure, once to copy.  A `va_list`
is the list of the arguments not yet read, and reading past its end is undefined.

The buffer has exactly the bytes that were asked for, with whatever `malloc` found in them, so that
a `strcat` which looks for the terminator too far, or copies too much, stops the program.  `size_t`
has 64 bits, and `total` wraps.
-/

namespace CExercises.Variadic

/-- `va_arg(ap, const char *)`: the argument, and the list without it. -/
def vaArg : List CStr → Except Stop (CStr × List CStr)
  | [] => .error .outOfBounds
  | s :: ap => .ok (s, ap)

/-! ## `strcat` -/

/-- The index of the first terminator from `i` on. -/
def findNul (out : Block UInt8) (i : ℤ) : Except Stop ℤ :=
  match h : out.load i with
  | .error e => .error e
  | .ok c => if c = 0 then .ok i else findNul out (i + 1)
termination_by (out.last + 1 - i).toNat
decreasing_by
  have := Block.load_bounds h
  omega

/-- `strcat`: the bytes of `src` and its terminator, from the terminator of `out` on. -/
def strcat (out : Block UInt8) (src : CStr) : Except Stop (Block UInt8) := do
  let k ← findNul out 0
  out.storeAll k (src.bytes ++ [0])

/-! ## `join` -/

/-- The first loop of `join`. -/
def measureFrom (n i : ℤ) (ap : List CStr) (total : UInt64) : Except Stop UInt64 :=
  if i < n then do
    let (s, ap) ← vaArg ap
    measureFrom n (i + 1) ap (total + UInt64.ofNat s.strlen)
  else
    return total
termination_by (n - i).toNat

/-- The second loop of `join`. -/
def appendFrom (n i : ℤ) (ap : List CStr) (out : Block UInt8) : Except Stop (Block UInt8) :=
  if i < n then do
    let (s, ap) ← vaArg ap
    let out ← strcat out s
    appendFrom n (i + 1) ap out
  else
    return out
termination_by (n - i).toNat

/-- `join`; `none` is `NULL`.  `malloc` is `none` when it fails, and otherwise what the memory it
hands out holds before. -/
def join (malloc : Option (ℤ → UInt8)) (n : ℤ) (args : List CStr) :
    Except Stop (Option (Block UInt8)) := do
  let total ← measureFrom n 0 args 1
  match malloc with
  | none => return none
  | some uninit =>
      let out := Block.ofCells total.toNat uninit
      let out ← out.store 0 0
      -- a fresh `va_list`
      let out ← appendFrom n 0 args out
      return some out

end CExercises.Variadic
