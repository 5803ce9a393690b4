import CExercises.Core.Strtol

/-!
# Error handling

`parse_int`, `parse_percent` and `risky_sqrt_approx` of `error_handling.c`.

The first two hand their string to `strtol` and decide from what it reports.  A pointer that may be
`NULL` is an `Option`; `errno` is passed in and out, and `*out` is returned as it stands after the
call.  The third reports an error by `longjmp`, so that a call either returns or jumps.
-/

namespace CExercises.ErrorHandling

/-- The values of `errno` that occur here. -/
inductive Errno
  | zero
  | EINVAL
  | ERANGE
  deriving DecidableEq

/-- `errno` after `errno = 0; strtol(...)`. -/
def errnoAfter (r : StrtolResult) : Errno := if r.erange then .ERANGE else .zero

/-- `parse_int`: what it returns, `*out` and `errno`. -/
def parseInt (s : Option CStr) (out : ℤ) : Except Stop (ℤ × ℤ × Errno) :=
  match s with
  | none => return (-1, out, .EINVAL)
  | some s => do
      if (← s.charAt 0) = 0 then return (-1, out, .EINVAL)
      let r := strtol s.bytes
      -- overflow, underflow
      if errnoAfter r ≠ .zero then return (-1, out, errnoAfter r)
      -- trailing garbage
      if (← s.charAt r.stop) ≠ 0 then return (-1, out, .EINVAL)
      return (0, toInt r.value, errnoAfter r)

/-- `ErrCode`. -/
inductive ErrCode
  | OK
  | ERR_NULL_ARG
  | ERR_PARSE
  | ERR_RANGE
  | ERR_ALLOC
  deriving DecidableEq

/-- `parse_percent`: what it returns, `*out` and `errno`. -/
def parsePercent (s : Option CStr) (out : Option ℤ) (errno : Errno) :
    Except Stop (ErrCode × Option ℤ × Errno) :=
  match s, out with
  | none, out => return (.ERR_NULL_ARG, out, errno)
  | some _, none => return (.ERR_NULL_ARG, none, errno)
  | some s, some out => do
      let r := strtol s.bytes
      let errno := errnoAfter r
      if errno ≠ .zero ∨ r.stop = 0 then return (.ERR_PARSE, some out, errno)
      -- `||` reads the second character only when the first is a `%`
      if (← s.charAt r.stop) ≠ ch '%' then return (.ERR_PARSE, some out, errno)
      if (← s.charAt (r.stop + 1)) ≠ 0 then return (.ERR_PARSE, some out, errno)
      if r.value < 0 ∨ r.value > 100 then return (.ERR_RANGE, some out, errno)
      return (.OK, some (toInt r.value), errno)

/-! ## `setjmp` and `longjmp` -/

def ERR_NEG_SQRT : ℤ := 2

/-- A call returns, or it jumps to the last `setjmp` with an error code. -/
inductive Ending (α : Type)
  | returns (a : α)
  | longjmp (err : ℤ)
  deriving DecidableEq

/-- The lines `risky_sqrt_approx` prints: `"sqrt(0) = 0"` and `"isqrt(%d) = %d"`. -/
inductive SqrtLine
  | sqrtZero
  | isqrt (x r : ℤ)
  deriving DecidableEq

/-- The root that a line reports. -/
def SqrtLine.root : SqrtLine → ℤ
  | .sqrtZero => 0
  | .isqrt _ r => r

/-- `r = (r + x/r) / 2`. -/
def newtonStep (x r : ℤ) : Except Stop ℤ := do
  let q ← intDiv x r
  let sum ← intAdd r q
  intDiv sum 2

/-- `r` after `i` passes of the loop, from `int r = x`. -/
def newtonLoop (x : ℤ) : ℕ → Except Stop ℤ
  | 0 => .ok x
  | i + 1 => do newtonStep x (← newtonLoop x i)

/-- `risky_sqrt_approx`. -/
def riskySqrtApprox (x : ℤ) : Except Stop (Ending SqrtLine) :=
  if x < 0 then .ok (.longjmp ERR_NEG_SQRT)
  else if x = 0 then .ok (.returns .sqrtZero)
  else do
    let r ← newtonLoop x 20
    return .returns (.isqrt x r)

end CExercises.ErrorHandling
