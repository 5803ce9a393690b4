import CExercises.Core.Transition
import CExercises.Framing.Def
import Mathlib.Data.List.TakeWhile

/-!
# The echo session

`section_tcp` of `sockets.c` after the connection stands: a client that sends its messages one by
one and waits for an answer to each, and a server that answers as many times as there are messages.
The two are processes of their own, so that a step is one system call of one of them, and the two
byte streams between them hold what has been sent and not yet received.  A `printf` is a step as
well.

* `send_msg` is two calls of `send`.  The peer may see the length long before the payload.
* `recv` takes some of the bytes there are, at least one and at most what was asked for.  If there
  are none it blocks, unless the peer has closed; then it returns 0.
* `snprintf` writes at most `sizeof echo - 1` bytes.

`buf` is the string in the caller's buffer, `none` as long as nothing has been stored there.  A
party that would print or format such a buffer has no step to take.
-/

namespace CExercises.Framing

/-- `sizeof buf`, on either side. -/
def bufSize : ℕ := 64

/-- `sizeof echo`. -/
def echoSize : ℕ := 80

/-- What `server_echo_fmt` puts in front of its argument: `"[echo] "`. -/
def echoPrefix : CStr := ⟨[91, 101, 99, 104, 111, 93, 32], by decide +kernel⟩

/-- `client_msgs`: `"hello"`, `"world"` and `"bye"`. -/
def clientMsgs : List CStr :=
  [⟨[104, 101, 108, 108, 111], by decide +kernel⟩, ⟨[119, 111, 114, 108, 100], by decide +kernel⟩,
    ⟨[98, 121, 101], by decide +kernel⟩]

/-- The string in a buffer that begins with these bytes and a terminator. -/
def stringOf (bs : List UInt8) : CStr where
  bytes := bs.takeWhile (· ≠ 0)
  nulFree := fun _ hb => by simpa using List.mem_takeWhile_imp hb

/-- `snprintf(echo, sizeof echo, server_echo_fmt, buf)`. -/
def formatEcho (buf : CStr) : CStr where
  bytes := (echoPrefix.append buf).bytes.take (echoSize - 1)
  nulFree := fun b hb => (echoPrefix.append buf).nulFree b (List.mem_of_mem_take hb)

/-- Where a call of `recv_msg` stands: before the length byte, in front of a payload of which it has
`got` already, or after its return. -/
inductive RecvPc
  | len
  | body (len : ℕ) (got : List UInt8)
  | returned

/-- One step of `recv_msg`.  `closed` says whether the peer has closed the connection. -/
inductive RecvStep (closed : Prop) :
    RecvPc → Option CStr → List UInt8 → RecvPc → Option CStr → List UInt8 → Prop
  | len {buf : Option CStr} {len : UInt8} {rest : List UInt8} :
      RecvStep closed .len buf (len :: rest)
        (.body (if len.toNat ≥ bufSize
          then UInt8.ofNat ((bufSize + (sizeMod - 1)) % sizeMod) else len).toNat []) buf rest
  /-- `recv_msg` returns `-1` and leaves the buffer alone. -/
  | lenClosed {buf : Option CStr} (hclosed : closed) :
      RecvStep closed .len buf [] .returned buf []
  | body {buf : Option CStr} {len : ℕ} {got chunk rest : List UInt8} (hmore : got.length < len)
      (hsome : chunk ≠ []) (hasked : chunk.length ≤ len - got.length) :
      RecvStep closed (.body len got) buf (chunk ++ rest) (.body len (got ++ chunk)) buf rest
  /-- The payload is cut short. -/
  | bodyClosed {buf : Option CStr} {len : ℕ} {got : List UInt8} (hmore : got.length < len)
      (hclosed : closed) :
      RecvStep closed (.body len got) buf [] .returned (some (stringOf got)) []
  | done {buf : Option CStr} {len : ℕ} {got rest : List UInt8} (hall : ¬ got.length < len) :
      RecvStep closed (.body len got) buf rest .returned (some (stringOf got)) rest

/-- Where the client stands in an iteration. -/
inductive ClientPc
  | top
  /-- Between the two calls of `send`. -/
  | sendBody
  | recv (pc : RecvPc)
  | closed

/-- The child process: the messages from the current one on, and what it has printed. -/
structure Client where
  pc : ClientPc
  todo : List CStr
  buf : Option CStr
  log : List (CStr × CStr)

/-- Where the server stands in an iteration. -/
inductive ServerPc
  | top
  | recv (pc : RecvPc)
  | sendLen (echo : CStr)
  | sendBody (echo : CStr)
  /-- `send_msg` has returned, and the line is yet to be printed. -/
  | print
  | closed

/-- The parent process: the iterations from the current one on, and what it has printed. -/
structure Server where
  pc : ServerPc
  rounds : ℕ
  buf : Option CStr
  log : List CStr

/-- The two processes, and the bytes on the way to the server and to the client. -/
structure Session where
  client : Client
  server : Server
  up : List UInt8
  down : List UInt8

inductive Party
  | client
  | server

/-- One step of one party. -/
inductive SessionStep : Party → Session → Session → Prop
  | clientSendLen {s : Session} {msg : CStr} {rest : List CStr} (hpc : s.client.pc = .top)
      (htodo : s.client.todo = msg :: rest) :
      SessionStep .client s { s with
        client := { s.client with pc := .sendBody },
        up := s.up ++ [UInt8.ofNat msg.strlen] }
  | clientSendBody {s : Session} {msg : CStr} {rest : List CStr} (hpc : s.client.pc = .sendBody)
      (htodo : s.client.todo = msg :: rest) :
      SessionStep .client s { s with
        client := { s.client with pc := .recv .len },
        up := s.up ++ msg.bytes.take (UInt8.ofNat msg.strlen).toNat }
  | clientRecv {s : Session} {pc pc' : RecvPc} {buf : Option CStr} {down : List UInt8}
      (hpc : s.client.pc = .recv pc)
      (hrecv : RecvStep (s.server.pc = .closed) pc s.client.buf s.down pc' buf down) :
      SessionStep .client s { s with
        client := { s.client with pc := .recv pc', buf := buf },
        down := down }
  | clientPrint {s : Session} {msg got : CStr} {rest : List CStr}
      (hpc : s.client.pc = .recv .returned) (htodo : s.client.todo = msg :: rest)
      (hbuf : s.client.buf = some got) :
      SessionStep .client s { s with
        client := ⟨.top, rest, some got, s.client.log ++ [(msg, got)]⟩ }
  | clientClose {s : Session} (hpc : s.client.pc = .top) (htodo : s.client.todo = []) :
      SessionStep .client s { s with client := { s.client with pc := .closed } }
  | serverTop {s : Session} {k : ℕ} (hpc : s.server.pc = .top) (hrounds : s.server.rounds = k + 1) :
      SessionStep .server s { s with server := { s.server with pc := .recv .len } }
  | serverRecv {s : Session} {pc pc' : RecvPc} {buf : Option CStr} {up : List UInt8}
      (hpc : s.server.pc = .recv pc)
      (hrecv : RecvStep (s.client.pc = .closed) pc s.server.buf s.up pc' buf up) :
      SessionStep .server s { s with
        server := { s.server with pc := .recv pc', buf := buf },
        up := up }
  | serverFormat {s : Session} {got : CStr} (hpc : s.server.pc = .recv .returned)
      (hbuf : s.server.buf = some got) :
      SessionStep .server s { s with
        server := { s.server with pc := .sendLen (formatEcho got) } }
  | serverSendLen {s : Session} {echo : CStr} (hpc : s.server.pc = .sendLen echo) :
      SessionStep .server s { s with
        server := { s.server with pc := .sendBody echo },
        down := s.down ++ [UInt8.ofNat echo.strlen] }
  | serverSendBody {s : Session} {echo : CStr} (hpc : s.server.pc = .sendBody echo) :
      SessionStep .server s { s with
        server := { s.server with pc := .print },
        down := s.down ++ echo.bytes.take (UInt8.ofNat echo.strlen).toNat }
  | serverPrint {s : Session} {got : CStr} {k : ℕ} (hpc : s.server.pc = .print)
      (hbuf : s.server.buf = some got) (hrounds : s.server.rounds = k + 1) :
      SessionStep .server s { s with
        server := ⟨.top, k, some got, s.server.log ++ [got]⟩ }
  | serverClose {s : Session} (hpc : s.server.pc = .top) (hrounds : s.server.rounds = 0) :
      SessionStep .server s { s with server := { s.server with pc := .closed } }

/-- A session over the given messages; `NMSGS` is their number on both sides. -/
def session (msgs : List CStr) : System Session Party where
  init s := s = ⟨⟨.top, msgs, none, []⟩, ⟨.top, msgs.length, none, []⟩, [], []⟩
  step := SessionStep

end CExercises.Framing
