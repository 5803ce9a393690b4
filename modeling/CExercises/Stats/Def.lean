import CExercises.Core.Block
import CExercises.Core.CInt
import CExercises.Core.Refinement

/-!
# Statistics that count their calls

`stats.c`: five functions on arrays of `double`, with a global counter `stats_calls` that each of
them increments.  The functions call one another, so the counter is passed through every call.  A
`double` is a `Float`; what the counter does never depends on one.
-/

namespace CExercises.Stats

/-- `for (int i = ...; i < n; i++) sum += ...`, with the term of the loop in terms of `arr[i]`. -/
def sumFrom (term : Float → Float) (arr : Block Float) (n i : ℤ) (sum : Float) :
    Except Stop Float :=
  if i < n then do
    let x ← arr.load i
    sumFrom term arr n (i + 1) (sum + term x)
  else
    return sum
termination_by (n - i).toNat

/-- `for (int i = ...; i < n; i++) if (...) m = arr[i]`. -/
def bestFrom (better : Float → Float → Bool) (arr : Block Float) (n i : ℤ) (m : Float) :
    Except Stop Float :=
  if i < n then do
    let x ← arr.load i
    bestFrom better arr n (i + 1) (if better x m then x else m)
  else
    return m
termination_by (n - i).toNat

/-- `stats_mean`.  All five take `stats_calls` and return it with the result. -/
def statsMean (calls : ℤ) (arr : Block Float) (n : ℤ) : Except Stop (ℤ × Float) := do
  let calls ← intSucc calls
  let sum ← sumFrom (fun x => x) arr n 0 0
  return (calls, sum / Float.ofInt n)

/-- `stats_variance`. -/
def statsVariance (calls : ℤ) (arr : Block Float) (n : ℤ) : Except Stop (ℤ × Float) := do
  let calls ← intSucc calls
  let (calls, m) ← statsMean calls arr n
  -- undo stats_mean's own increment so variance counts as one call
  let calls ← intPred calls
  let sum ← sumFrom (fun x => (x - m) * (x - m)) arr n 0 0
  return (calls, sum / Float.ofInt n)

/-- `stats_stddev`. -/
def statsStddev (calls : ℤ) (arr : Block Float) (n : ℤ) : Except Stop (ℤ × Float) := do
  let calls ← intSucc calls
  let (calls, variance) ← statsVariance calls arr n
  return (calls, variance.sqrt)

/-- `stats_min` and `stats_max`. -/
def statsBest (better : Float → Float → Bool) (calls : ℤ) (arr : Block Float) (n : ℤ) :
    Except Stop (ℤ × Float) := do
  let calls ← intSucc calls
  let m ← arr.load 0
  let m ← bestFrom better arr n 1 m
  return (calls, m)

/-- `stats_min`. -/
def statsMin : ℤ → Block Float → ℤ → Except Stop (ℤ × Float) := statsBest fun x m => x < m

/-- `stats_max`. -/
def statsMax : ℤ → Block Float → ℤ → Except Stop (ℤ × Float) := statsBest fun x m => x > m

/-! ## Runs -/

/-- The public functions. -/
inductive Fn
  | mean
  | variance
  | stddev
  | min
  | max
  deriving DecidableEq

/-- A client's call, on an array that can be read as far as the function reads it. -/
structure Call where
  fn : Fn
  arr : Block Float
  n : ℤ
  cells : arr.Covers 0 (n - 1)
  first : fn = .min ∨ fn = .max → arr.Covers 0 0

/-- Carry out one call. -/
def call (calls : ℤ) (c : Call) : Except Stop (ℤ × Float) :=
  match c.fn with
  | .mean => statsMean calls c.arr c.n
  | .variance => statsVariance calls c.arr c.n
  | .stddev => statsStddev calls c.arr c.n
  | .min => statsMin calls c.arr c.n
  | .max => statsMax calls c.arr c.n

/-- A client's calls from program start, where `stats_calls` is `0`. -/
def run (cs : List Call) : Except Stop (ℤ × List Float) := runCalls call 0 cs

end CExercises.Stats
