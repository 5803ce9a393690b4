import CExercises.Core.Block
import CExercises.Core.CInt
import CExercises.Core.CString

/-!
# Length-prefixed messages over a byte stream

`send_msg`, `recv_msg` and `recv_all` of `sockets.c`: a message is one byte of length and then the
payload.

The receiving end of a connection is the list of bytes that have yet to be read; when it is empty
the peer has closed.  How the kernel splits the stream is not up to the program.  It is an argument
here: the `n`-th call of `recv` returns a number of bytes that `choice n` determines, and every
number from 1 to what is asked for and available is the value of some choice.  `recv` does not fail
and `send` transmits everything.
-/

namespace CExercises.Framing

/-- The bytes to come, and how many times `recv` has been called. -/
structure Socket where
  stream : List UInt8
  calls : ℕ

/-- `send_msg`: the bytes it puts on the stream. -/
def sendMsg (msg : CStr) : List UInt8 :=
  let len := UInt8.ofNat msg.strlen
  len :: msg.bytes.take len.toNat

section

variable (choice : ℕ → ℕ)

/-- `recv(fd, buf + off, k, 0)`. -/
def recv (s : Socket) (buf : Block UInt8) (off k : ℕ) : Except Stop (ℕ × Socket × Block UInt8) := do
  let avail := min k s.stream.length
  let r := if avail = 0 then 0 else 1 + choice s.calls % avail
  let buf ← buf.storeAll off (s.stream.take r)
  return (r, ⟨s.stream.drop r, s.calls + 1⟩, buf)

/-- The loop of `recv_all`, with `total` bytes received. -/
def recvAllFrom (s : Socket) (buf : Block UInt8) (n total : ℕ) :
    Except Stop (ℕ × Socket × Block UInt8) :=
  if total < n then do
    let (r, s, buf) ← recv choice s buf total (n - total)
    if r ≤ 0 then return (total, s, buf)
    recvAllFrom s buf n (total + r)
  else
    return (total, s, buf)
termination_by n - total

/-- `recv_all`. -/
def recvAll (s : Socket) (buf : Block UInt8) (n : ℕ) : Except Stop (ℕ × Socket × Block UInt8) :=
  recvAllFrom choice s buf n 0

/-- `recv_msg`: what it returns, the socket, and the caller's buffer. -/
def recvMsg (s : Socket) (buf : Block UInt8) (bufsz : ℕ) :
    Except Stop (ℤ × Socket × Block UInt8) := do
  -- `uint8_t len`, of which nothing is read before it is written
  let (got, s, lenCell) ← recvAll choice s (Block.ofCells 1 fun _ => 0) 1
  if got ≠ 1 then return (-1, s, buf)
  let len ← lenCell.load 0
  let len := if len.toNat ≥ bufsz then UInt8.ofNat ((bufsz + (sizeMod - 1)) % sizeMod) else len
  let (n, s, buf) ← recvAll choice s buf len.toNat
  let buf ← buf.store n 0
  return (n, s, buf)

/-- `recv_msg` called `k` times with the same buffer; what each call returned and left in it. -/
def recvMsgs (bufsz : ℕ) : ℕ → Socket → Block UInt8 →
    Except Stop (List (ℤ × Block UInt8) × Socket × Block UInt8)
  | 0, s, buf => return ([], s, buf)
  | k + 1, s, buf => do
      let (n, s, buf) ← recvMsg choice s buf bufsz
      let (rest, s, last) ← recvMsgs bufsz k s buf
      return ((n, buf) :: rest, s, last)

end

end CExercises.Framing
