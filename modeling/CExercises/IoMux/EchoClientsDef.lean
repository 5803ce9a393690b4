import CExercises.Core.CString
import CExercises.Core.Decimal
import CExercises.IoMux.EchoDef
import Mathlib.Data.Fintype.Card
import Mathlib.Tactic.FinCases

/-!
# The echo server with its clients

`run_clients` of `io_mux.c` beside the server of `EchoDef.lean`: every client is a process that
connects, writes one message, reads one reply, prints it and closes.  The steps of the server are
those of `EchoDef.lean`, without a timeout, an error or a failed read; what a client does to its
connection is done by the steps below.

A message is written in one call and is short, so that it arrives as a whole, and a reply likewise.
A client that connects when the listening socket is closed is refused, and exits without a reply.
-/

namespace CExercises.IoMux.Echo

/-- `sizeof reply`. -/
def SIZEOF_REPLY : ℕ := 64

/-- Where a client process stands. -/
inductive ProcPc
  | connecting
  | writing
  | reading
  | printing (reply : List UInt8)
  | closing
  | exited
  deriving DecidableEq

/-- A client process, and the reply it has printed. -/
structure Proc where
  pc : ProcPc
  shown : Option (List UInt8)
  deriving DecidableEq

/-- The server with what the kernel keeps for it, and the client processes. -/
structure World (C : Type) where
  echo : State C
  proc : C → Proc

section

variable {C : Type} [DecidableEq C]

/-- A new record for one client, and a new place of its process. -/
def World.set (w : World C) (c : C) (cl : Client) (pr : Proc) : World C :=
  ⟨w.echo.set c cl, Function.update w.proc c pr⟩

/-- One step of a client process or of the server.  `msg` says what each client sends. -/
inductive WorldStep [Fintype C] (msg : C → CStr) : Label C → World C → World C → Prop
  | connect {w : World C} {c : C} (hpc : (w.proc c).pc = .connecting)
      (hlisten : w.echo.pc ≠ .done) :
      WorldStep msg (.client c) w (w.set c { w.echo.client c with conn := .pending }
        { w.proc c with pc := .writing })
  /-- `connect` fails. -/
  | refused {w : World C} {c : C} (hpc : (w.proc c).pc = .connecting) (hgone : w.echo.pc = .done) :
      WorldStep msg (.client c) w (w.set c (w.echo.client c) { w.proc c with pc := .exited })
  | write {w : World C} {c : C} (hpc : (w.proc c).pc = .writing) :
      WorldStep msg (.client c) w (w.set c
        { w.echo.client c with
          buffer := (w.echo.client c).buffer ++ (msg c).bytes
          sent := (w.echo.client c).sent ++ (msg c).bytes }
        { w.proc c with pc := .reading })
  /-- `read(fd, reply, sizeof reply - 1)`. -/
  | read {w : World C} {c : C} (hpc : (w.proc c).pc = .reading)
      (hdata : (w.echo.client c).written ≠ []) :
      WorldStep msg (.client c) w (w.set c (w.echo.client c)
        { w.proc c with
          pc := .printing ((w.echo.client c).written.take (SIZEOF_REPLY - 1)) })
  /-- The server has closed the connection without a reply. -/
  | readEof {w : World C} {c : C} (hpc : (w.proc c).pc = .reading)
      (hdata : (w.echo.client c).written = []) (hconn : (w.echo.client c).conn = .closed) :
      WorldStep msg (.client c) w (w.set c (w.echo.client c) { w.proc c with pc := .printing [] })
  /-- `client %d: echo "%s"`, which ends at the first terminator. -/
  | print {w : World C} {c : C} {reply : List UInt8} (hpc : (w.proc c).pc = .printing reply) :
      WorldStep msg (.client c) w (w.set c (w.echo.client c)
        ⟨.closing, some (reply.takeWhile (· ≠ 0))⟩)
  | close {w : World C} {c : C} (hpc : (w.proc c).pc = .closing) :
      WorldStep msg (.client c) w (w.set c { w.echo.client c with halfClosed := true }
        { w.proc c with pc := .exited })
  /-- The server moves, and does not give up waiting. -/
  | server {w : World C} {s : State C} (hstep : Step (Fintype.card C) .server w.echo s)
      (hstay : w.echo.pc = .waiting → s.pc ≠ .done) :
      WorldStep msg .server w ⟨s, w.proc⟩

/-- `section6_echo_server` with one client for each element of `C`. -/
def echoWorld [Fintype C] (msg : C → CStr) : System (World C) (Label C) where
  init w := w = ⟨start, fun _ => ⟨.connecting, none⟩⟩
  step := WorldStep msg

end

/-! ## The clients of the program -/

def NUM_CLIENTS : ℕ := 3

/-- `"ping from client "`. -/
def pingFrom : CStr :=
  ⟨[112, 105, 110, 103, 32, 102, 114, 111, 109, 32, 99, 108, 105, 101, 110, 116, 32],
    by decide +kernel⟩

/-- `"ping from client %d"` for each client; the number has one digit. -/
def clientMsg (i : Fin NUM_CLIENTS) : CStr :=
  pingFrom.append ⟨[digitChar i], by fin_cases i <;> decide +kernel⟩

end CExercises.IoMux.Echo
