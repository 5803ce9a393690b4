import CExercises.Core.CString
import Mathlib.Logic.Function.Iterate

/-!
# Three ways to wait for two pipes

`section2_select`, `section3_poll` and `section4_epoll` of `io_mux.c` each read one string from each
of two pipes, in the order in which the pipes become ready.  They track what is left to do in
different ways — two flags, two slots of an array with a counter, the interest list of an epoll
instance with a counter — and look at different parts of what the kernel reports.

The loops are written against a `Kernel`, which is what their system calls mean.  A wait is given
the read ends that are watched and reports some of them; how select, poll and epoll show such a
report to the program is part of the loops.  What the program does to the two descriptors is kept in
a log.

The loops have no bound of their own, so they carry a step budget; running out of it is `.diverges`.
-/

namespace CExercises.IoMux

/-- The read ends of the two pipes. -/
inductive End
  | ra
  | rb
  deriving DecidableEq

/-- What the kernel knows of a read end: bytes are waiting, the write end is closed. -/
structure Ready where
  data : Bool
  hup : Bool
  deriving DecidableEq

/-- How a wait comes back. -/
inductive Outcome
  | timeout
  | error
  | ready (evs : List (End × Ready))

/-- The system calls of the loops.  `read e n` is a read of at most `n` bytes. -/
structure Kernel (K : Type) where
  wait : List End → K → Except Stop (Outcome × K)
  read : End → ℕ → K → Except Stop (List UInt8 × K)

/-- What is done to a descriptor: one read, with the string that is printed, or a close. -/
inductive Action
  | got (e : End) (text : List UInt8)
  | close (e : End)

/-- The kernel, and what the program has done. -/
structure Run (K : Type) where
  kernel : K
  log : List Action

section

variable {K : Type} (kern : Kernel K)

/-- `char buf[32] = {0}; read(fd, buf, sizeof buf - 1);` and the string printed from `buf`. -/
def readString (r : Run K) (e : End) : Except Stop (Run K) := do
  let (bytes, k) ← kern.read e 31 r.kernel
  let buf := bytes ++ List.replicate (32 - bytes.length) 0
  return ⟨k, r.log ++ [.got e (buf.takeWhile (· ≠ 0))]⟩

/-- `close(fd)`. -/
def closeEnd (r : Run K) (e : End) : Run K := { r with log := r.log ++ [.close e] }

def readAndClose (r : Run K) (e : End) : Except Stop (Run K) := do
  let r ← readString kern r e
  return closeEnd r e

/-! ## select -/

/-- `FD_ISSET`, after a select on read sets: a hang-up makes a descriptor readable too. -/
def fdIsSet (e : End) (evs : List (End × Ready)) : Bool :=
  evs.any fun ev => ev.1 = e && (ev.2.data || ev.2.hup)

/-- `if (!done && FD_ISSET(fd, &rset)) { ... }`. -/
def selectEnd (evs : List (End × Ready)) (e : End) (done : Bool) (r : Run K) :
    Except Stop (Bool × Run K) :=
  if !done && fdIsSet e evs then do
    let r ← readAndClose kern r e
    return (true, r)
  else
    return (done, r)

/-- The loop of `section2_select`. -/
def selectLoop : ℕ → Bool → Bool → Run K → Except Stop (Bool × Bool × Run K)
  | 0, _, _, _ => .error .diverges
  | fuel + 1, doneA, doneB, r =>
      if !doneA || !doneB then do
        let rset := (if doneA then [] else [.ra]) ++ (if doneB then [] else [.rb])
        let (out, k) ← kern.wait rset r.kernel
        let r := { r with kernel := k }
        match out with
        | .timeout => return (doneA, doneB, r)
        | .error => return (doneA, doneB, r)
        | .ready evs =>
            let (doneA, r) ← selectEnd kern evs .ra doneA r
            let (doneB, r) ← selectEnd kern evs .rb doneB r
            selectLoop fuel doneA doneB r
      else
        return (doneA, doneB, r)

/-- `section2_select`. -/
def section2Select (fuel : ℕ) (k : K) : Except Stop (Run K) := do
  let (doneA, doneB, r) ← selectLoop kern fuel false false ⟨k, []⟩
  let r := if !doneA then closeEnd r .ra else r
  let r := if !doneB then closeEnd r .rb else r
  return r

/-! ## poll -/

/-- `fds[i].revents` of a slot that holds `e`. -/
def revents (e : End) (evs : List (End × Ready)) : Ready :=
  match evs.find? fun ev => ev.1 = e with
  | some ev => ev.2
  | none => ⟨false, false⟩

/-- One round of the inner loop: `if (fds[i].revents & POLLIN) { ... }`.  A negative descriptor,
here `none`, is ignored by poll, and its `revents` are zero. -/
def pollSlot (evs : List (End × Ready)) (fd : Option End) (remaining : ℤ) (r : Run K) :
    Except Stop (Option End × ℤ × Run K) :=
  match fd with
  | none => return (none, remaining, r)
  | some e =>
      if remaining > 0 && (revents e evs).data then do
        let r ← readAndClose kern r e
        return (none, remaining - 1, r)
      else
        return (some e, remaining, r)

/-- The loop of `section3_poll`. -/
def pollLoop : ℕ → Option End → Option End → ℤ → Run K →
    Except Stop (Option End × Option End × Run K)
  | 0, _, _, _, _ => .error .diverges
  | fuel + 1, fdA, fdB, remaining, r =>
      if remaining > 0 then do
        let (out, k) ← kern.wait (fdA.toList ++ fdB.toList) r.kernel
        let r := { r with kernel := k }
        match out with
        | .timeout => return (fdA, fdB, r)
        | .error => return (fdA, fdB, r)
        | .ready evs =>
            let (fdA, remaining, r) ← pollSlot kern evs fdA remaining r
            let (fdB, remaining, r) ← pollSlot kern evs fdB remaining r
            pollLoop fuel fdA fdB remaining r
      else
        return (fdA, fdB, r)

/-- `section3_poll`. -/
def section3Poll (fuel : ℕ) (k : K) : Except Stop (Run K) := do
  let (fdA, fdB, r) ← pollLoop kern fuel (some .ra) (some .rb) 2 ⟨k, []⟩
  return fdB.toList.foldl closeEnd (fdA.toList.foldl closeEnd r)

/-! ## epoll -/

/-- `for (i = 0; i < n; i++) { ... }` over the reported events.  The mask of an event is not looked
at; `interest` is the list `EPOLL_CTL_DEL` takes the descriptor from. -/
def epollEvents : List (End × Ready) → List End → ℤ → Run K → Except Stop (List End × ℤ × Run K)
  | [], interest, remaining, r => return (interest, remaining, r)
  | ev :: evs, interest, remaining, r => do
      let r ← readString kern r ev.1
      epollEvents evs (interest.filter (· ≠ ev.1)) (remaining - 1) (closeEnd r ev.1)

/-- The loop of `section4_epoll`. -/
def epollLoop : ℕ → List End → ℤ → Run K → Except Stop (Run K)
  | 0, _, _, _ => .error .diverges
  | fuel + 1, interest, remaining, r =>
      if remaining > 0 then do
        let (out, k) ← kern.wait interest r.kernel
        let r := { r with kernel := k }
        match out with
        | .timeout => return r
        | .error => return r
        | .ready evs =>
            let (interest, remaining, r) ← epollEvents kern evs interest remaining r
            epollLoop fuel interest remaining r
      else
        return r

/-- `section4_epoll`, which closes only what it has read. -/
def section4Epoll (fuel : ℕ) (k : K) : Except Stop (Run K) :=
  epollLoop kern fuel [.ra, .rb] 2 ⟨k, []⟩

end

/-- The strings read from one end, in order. -/
def strings (e : End) (log : List Action) : List (List UInt8) :=
  log.filterMap fun
    | .got e' text => if e' = e then some text else none
    | .close _ => none

/-! ## The two writers -/

/-- A pipe: the bytes in it, and whether its write end is open. -/
structure Pipe where
  buffer : List UInt8
  writer : Bool

/-- What a child of `two_writers` does to its pipe. -/
inductive ChildStep
  | write (e : End)
  | close (e : End)
  deriving DecidableEq

/-- The pipe a step is about. -/
def ChildStep.fd : ChildStep → End
  | write e => e
  | close e => e

def PIPE_BUF : ℕ := 4096

/-- A message for `two_writers`, short enough to be written in one piece. -/
structure Message where
  text : CStr
  fits : text.strlen ≤ PIPE_BUF

/-- The bytes of the message. -/
def Message.bytes (m : Message) : List UInt8 := m.text.bytes

/-- The pipes, what the children still do in the order in which they will do it, and the number of
system calls so far. -/
structure World where
  pipe : End → Pipe
  todo : List ChildStep
  calls : ℕ

/-- The order in which things happen.  Each child writes its message and closes; the steps of the
two come in any order.  `delay n` of them happen just before the `n`-th system call looks at the
pipes, and `flip n` is the order in which a wait lists two ready ends. -/
structure Schedule where
  steps : List ChildStep
  delay : ℕ → ℕ
  flip : ℕ → Bool
  program : ∀ e, steps.filter (fun c => c.fd = e) = [.write e, .close e]

section

variable (msg : End → Message) (sched : Schedule)

/-- The next step of a child. -/
def childStep (w : World) : World :=
  match w.todo with
  | [] => w
  | .write e :: rest =>
      ⟨Function.update w.pipe e ⟨(w.pipe e).buffer ++ (msg e).bytes, (w.pipe e).writer⟩, rest,
        w.calls⟩
  | .close e :: rest =>
      ⟨Function.update w.pipe e ⟨(w.pipe e).buffer, false⟩, rest, w.calls⟩

/-- Time passes before a system call. -/
def pass (w : World) : World :=
  (childStep msg)^[sched.delay w.calls] { w with calls := w.calls + 1 }

/-- Sleep until `p` holds.  If it never will, the program is stuck. -/
def block (p : World → Bool) : ℕ → World → Except Stop World
  | 0, w => if p w then .ok w else .error .diverges
  | n + 1, w => if p w then .ok w else block p n (childStep msg w)

/-- The state of a read end. -/
def ready (w : World) (e : End) : Ready := ⟨!(w.pipe e).buffer.isEmpty, !(w.pipe e).writer⟩

/-- The kernel has something to report: data, or the end of the file. -/
def isReady (w : World) (e : End) : Bool := (ready w e).data || (ready w e).hup

/-- The first `n` bytes leave the pipe. -/
def consume (w : World) (e : End) (n : ℕ) : World :=
  { w with pipe := Function.update w.pipe e ⟨(w.pipe e).buffer.drop n, (w.pipe e).writer⟩ }

/-- Linux pipes that the two children write to, with no timeout and no error. -/
def pipes : Kernel World where
  wait watched w := do
    let w := pass msg sched w
    let w ← block msg (fun w => watched.any (isReady w)) w.todo.length w
    let w := pass msg sched w
    let evs := (watched.filter (isReady w)).map fun e => (e, ready w e)
    return (.ready (if sched.flip w.calls then evs.reverse else evs), w)
  read e n w := do
    let w := pass msg sched w
    let w ← block msg (fun w => isReady w e) w.todo.length w
    return ((w.pipe e).buffer.take n, consume w e n)

/-- `two_writers`. -/
def twoWriters : World := ⟨fun _ => ⟨[], true⟩, sched.steps, 0⟩

end

end CExercises.IoMux
