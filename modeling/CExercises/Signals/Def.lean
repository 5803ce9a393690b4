import CExercises.Core.Block
import CExercises.Core.Decimal

/-!
# Writing a number from a signal handler

`write_int` of `signals.c`, which may use neither `printf` nor `malloc`.  It fills a buffer on the
stack from its end, and writes the part it has filled.  What the buffer holds before is arbitrary.

`n` is an `int` whose negation wraps, and `%` and `/` drop the fraction.  The `do`-`while` loop
recurses on the index: every pass moves it down by one, and at `0` the next pass would store to
`buf[-1]`.
-/

namespace CExercises.Signals

/-- `do { buf[--i] = '0' + (n % 10); n /= 10; } while (n > 0);`. -/
def storeDigits (buf : Block UInt8) : ℕ → ℤ → Except Stop (Block UInt8 × ℤ)
  | 0, _ => .error .outOfBounds
  | i + 1, n => do
      let buf ← buf.store i (digitChar (n.tmod 10))
      let n := n.tdiv 10
      if n > 0 then storeDigits buf i n else return (buf, (i : ℤ))

/-- `if (neg) buf[--i] = '-';`. -/
def storeSign (buf : Block UInt8) (i : ℤ) (neg : Bool) : Except Stop (Block UInt8 × ℤ) := do
  if neg then
    let buf ← buf.store (i - 1) (ch '-')
    return (buf, i - 1)
  else return (buf, i)

/-- `write_int`: the bytes it hands to `write`.  `stack` is what `buf` holds before. -/
def writeInt (stack : ℤ → UInt8) (n : ℤ) : Except Stop (List UInt8) := do
  let buf := Block.ofCells 32 stack
  let neg := decide (n < 0)
  let n := if neg then toInt (-n) else n
  let buf ← buf.store 31 0
  let (buf, i) ← storeDigits buf 31 n
  let (buf, i) ← storeSign buf i neg
  buf.loadAll i (31 - i).toNat

end CExercises.Signals
