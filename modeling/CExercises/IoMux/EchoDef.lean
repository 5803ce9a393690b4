import CExercises.Core.Transition
import Mathlib.Data.Int.Notation

/-!
# The echo server

`section6_echo_server` of `io_mux.c`: one thread that accepts clients and echoes what they send,
with one read for each event that epoll reports.  Between any two of its system calls the clients
may connect, send and half-close, in any order.

A client is what the kernel keeps for its connection: the bytes that have arrived and have not been
read, and whether the client has half-closed.  What it has sent in all, and what has been written
back to it, are kept beside that.

An event in `events[]` names its client.  A descriptor that is closed while a batch is handled may
be given to a client that is accepted later in the same batch, but the batch has no second event for
it.

The server ends when it has seen `NUM_CLIENTS` clients.  It counts them, and those it still serves,
in ints, which do not overflow here; more clients than an int can count are not considered.
-/

namespace CExercises.IoMux.Echo

/-- How far the connection of a client has come. -/
inductive Conn
  | absent
  /-- Waiting to be accepted. -/
  | pending
  /-- Accepted, and in the interest list. -/
  | registered
  | closed
  deriving DecidableEq

structure Client where
  conn : Conn
  buffer : List UInt8
  halfClosed : Bool
  /-- A read has failed, for another reason than that there is nothing to read yet. -/
  failed : Bool
  sent : List UInt8
  written : List UInt8

/-- The bits of `events[i].events`. -/
structure Mask where
  epollin : Bool
  epollrdhup : Bool
  epollhup : Bool
  epollerr : Bool

/-- `events[i].events & (EPOLLRDHUP | EPOLLHUP | EPOLLERR)`. -/
def Mask.hungUp (events : Mask) : Bool := events.epollrdhup || events.epollhup || events.epollerr

/-- `nr <= 0 || (events[i].events & (EPOLLRDHUP | EPOLLHUP | EPOLLERR))`. -/
def disconnect (nr : ℤ) (events : Mask) : Bool := nr ≤ 0 || events.hungUp

/-- `char buf[256]`. -/
def SIZEOF_BUF : ℕ := 256

inductive Fd (C : Type)
  | lfd
  | cfd (c : C)

structure Event (C : Type) where
  fd : Fd C
  events : Mask

/-- Where the server stands.  `rest` are the events of the batch that are still to come. -/
inductive Pc (C : Type)
  /-- At `epoll_wait`. -/
  | waiting
  /-- At the top of the inner loop, or in the accept loop of its first event. -/
  | handling (evs : List (Event C))
  /-- `nr > 0`, before the write. -/
  | writing (c : C) (events : Mask) (buf : List UInt8) (rest : List (Event C))
  /-- At the test for a disconnect. -/
  | deciding (c : C) (events : Mask) (nr : ℤ) (rest : List (Event C))
  | done

structure State (C : Type) where
  client : C → Client
  pc : Pc C
  active : ℤ
  totalSeen : ℤ

/-- Who moves.  A read that fails is the doing of the network. -/
inductive Label (C : Type)
  | client (c : C)
  | server
  | readFails

section

variable {C : Type} [DecidableEq C]

/-- What epoll reports for a client: EPOLLIN when data or the end of the file is pending, EPOLLRDHUP
when it has half-closed. -/
def Client.report (cl : Client) : Mask where
  epollin := !cl.buffer.isEmpty || cl.halfClosed
  epollrdhup := cl.halfClosed
  epollhup := false
  epollerr := false

/-- Epoll has something to report. -/
def Ready (s : State C) : Fd C → Prop
  | .lfd => ∃ c, (s.client c).conn = .pending
  | .cfd c => (s.client c).conn = .registered
      ∧ ((s.client c).report.epollin = true ∨ (s.client c).report.epollrdhup = true)

def eventFor (s : State C) : Fd C → Event C
  | .lfd => ⟨.lfd, ⟨true, false, false, false⟩⟩
  | .cfd c => ⟨.cfd c, (s.client c).report⟩

/-- A new record for one client. -/
def State.set (s : State C) (c : C) (cl : Client) : State C :=
  { s with client := Function.update s.client c cl }

/-- One step.  `numClients` is `NUM_CLIENTS`. -/
inductive Step (numClients : ℤ) : Label C → State C → State C → Prop
  | connect {s : State C} {c : C} (hconn : (s.client c).conn = .absent) :
      Step numClients (.client c) s (s.set c { s.client c with conn := .pending })
  | send {s : State C} {c : C} (bytes : List UInt8) (hconn : (s.client c).conn ≠ .absent)
      (hopen : (s.client c).halfClosed = false) :
      Step numClients (.client c) s (s.set c { s.client c with
        buffer := (s.client c).buffer ++ bytes
        sent := (s.client c).sent ++ bytes })
  | halfClose {s : State C} {c : C} (hconn : (s.client c).conn ≠ .absent) :
      Step numClients (.client c) s (s.set c { s.client c with halfClosed := true })
  /-- `epoll_wait` returns `n > 0`: some of the descriptors that are ready, at most 16. -/
  | wait {s : State C} (fds : List (Fd C)) (hpc : s.pc = .waiting) (hpos : 0 < fds.length)
      (hmax : fds.length ≤ 16) (hnodup : fds.Nodup) (hready : ∀ fd ∈ fds, Ready s fd) :
      Step numClients .server s { s with pc := .handling (fds.map (eventFor s)) }
  /-- `epoll_wait` returns `n <= 0`. -/
  | leave {s : State C} (hpc : s.pc = .waiting) : Step numClients .server s { s with pc := .done }
  | endBatch {s : State C} (hpc : s.pc = .handling []) :
      Step numClients .server s { s with pc := .waiting }
  /-- One round of the accept loop. -/
  | accept {s : State C} {events : Mask} {rest : List (Event C)} {c : C}
      (hpc : s.pc = .handling (⟨.lfd, events⟩ :: rest)) (hconn : (s.client c).conn = .pending) :
      Step numClients .server s { s.set c { s.client c with conn := .registered } with
        active := s.active + 1
        totalSeen := s.totalSeen + 1 }
  /-- EAGAIN: all accepted. -/
  | allAccepted {s : State C} {events : Mask} {rest : List (Event C)}
      (hpc : s.pc = .handling (⟨.lfd, events⟩ :: rest))
      (hnone : ∀ c, (s.client c).conn ≠ .pending) :
      Step numClients .server s { s with pc := .handling rest }
  /-- `read(fd, buf, sizeof buf - 1)` with something to read. -/
  | read {s : State C} {c : C} {events : Mask} {rest : List (Event C)}
      (hpc : s.pc = .handling (⟨.cfd c, events⟩ :: rest)) (hdata : (s.client c).buffer ≠ []) :
      Step numClients .server s
        { s.set c { s.client c with buffer := (s.client c).buffer.drop (SIZEOF_BUF - 1) } with
          pc := .writing c events ((s.client c).buffer.take (SIZEOF_BUF - 1)) rest }
  | readEof {s : State C} {c : C} {events : Mask} {rest : List (Event C)}
      (hpc : s.pc = .handling (⟨.cfd c, events⟩ :: rest)) (hdata : (s.client c).buffer = [])
      (hhalf : (s.client c).halfClosed = true) :
      Step numClients .server s { s with pc := .deciding c events 0 rest }
  /-- The descriptor is not blocking, so `read` returns -1 at once. -/
  | readAgain {s : State C} {c : C} {events : Mask} {rest : List (Event C)}
      (hpc : s.pc = .handling (⟨.cfd c, events⟩ :: rest)) (hdata : (s.client c).buffer = [])
      (hhalf : (s.client c).halfClosed = false) :
      Step numClients .server s { s with pc := .deciding c events (-1) rest }
  | readFails {s : State C} {c : C} {events : Mask} {rest : List (Event C)}
      (hpc : s.pc = .handling (⟨.cfd c, events⟩ :: rest)) :
      Step numClients .readFails s { s.set c { s.client c with failed := true } with
        pc := .deciding c events (-1) rest }
  /-- `write(fd, buf, nr)`, which takes everything. -/
  | write {s : State C} {c : C} {events : Mask} {buf : List UInt8} {rest : List (Event C)}
      (hpc : s.pc = .writing c events buf rest) :
      Step numClients .server s
        { s.set c { s.client c with written := (s.client c).written ++ buf } with
          pc := .deciding c events buf.length rest }
  | keep {s : State C} {c : C} {events : Mask} {nr : ℤ} {rest : List (Event C)}
      (hpc : s.pc = .deciding c events nr rest) (hdis : disconnect nr events = false) :
      Step numClients .server s { s with pc := .handling rest }
  /-- `epoll_ctl(DEL)`, `close(fd)`, `active--`, and `goto done` after the last client. -/
  | close {s : State C} {c : C} {events : Mask} {nr : ℤ} {rest : List (Event C)}
      (hpc : s.pc = .deciding c events nr rest) (hdis : disconnect nr events = true) :
      Step numClients .server s { s.set c { s.client c with conn := .closed } with
        active := s.active - 1
        pc := if s.active - 1 = 0 ∧ s.totalSeen = numClients then .done else .handling rest }

/-- Nobody has connected, and the server is about to wait. -/
def start : State C := ⟨fun _ => ⟨.absent, [], false, false, [], []⟩, .waiting, 0, 0⟩

def echoServer (numClients : ℤ) : System (State C) (Label C) where
  init s := s = start
  step := Step numClients

end

/-- Whenever the server has closed a client's descriptor without a read error, it has written back
everything that the client sent. -/
def LosesNothing {C : Type} (s : State C) : Prop :=
  ∀ c, (s.client c).conn = .closed → (s.client c).failed = false →
    (s.client c).written = (s.client c).sent

end CExercises.IoMux.Echo
