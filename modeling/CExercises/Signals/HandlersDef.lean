import CExercises.Core.Delivery
import CExercises.Signals.Def

/-!
# Code that signals interrupt

Three sections of `signals.c` as interruptible code: the counting handler of `section_safety`, the
critical section of `section_sigaction`, and the timeout of `section_alarm`.  Each begins with
nothing blocked and the default action for every signal, which is also what it restores.

What is written to standard output is kept with the variables, together with those calls whose order
matters.  The alarm of `alarm(2)` may go off at any time, and `SIGALRM` may also come from
elsewhere.

`sigaction` installs a handler that stays.  The handler that `signal` installs may be reset when it
runs, which the C standard leaves to the system, so `section_alarm` is modelled both ways.
-/

namespace CExercises.Signals

inductive Sig
  | SIGUSR1
  | SIGUSR2
  | SIGALRM
  | SIGTERM
  deriving DecidableEq

/-- What one signal does, and the default action for the others. -/
def caught (s : Sig) (disp : Disposition) : Sig → Disposition :=
  Function.update (fun _ => .dfl) s disp

lemma caught_ne_dfl {s t : Sig} {disp : Disposition} (hdisp : disp ≠ .ign)
    (h : caught s disp t ≠ .dfl) : t = s ∧ caught s disp t ≠ .ign := by
  by_cases hts : t = s
  · subst hts
    exact ⟨rfl, by rwa [caught, Function.update_self]⟩
  · exact absurd (Function.update_of_ne hts _ _) h

/-! ## Counting in a handler -/

/-- What `section_safety` prints, by `printf` and by `write`. -/
inductive SafetyOut
  | firing
  | finalCount (count : ℤ)
  | wrote (bytes : List UInt8)
  deriving DecidableEq

structure SafetyMem where
  /-- `g_sigusr1_count`. -/
  count : ℤ
  out : List SafetyOut

/-- A call of `write`. -/
def SafetyMem.write (m : SafetyMem) (bytes : List UInt8) : SafetyMem :=
  { m with out := m.out ++ [.wrote bytes] }

/-- `"  [safe_handler] count="`. -/
def countText : List UInt8 :=
  [32, 32, 91, 115, 97, 102, 101, 95, 104, 97, 110, 100, 108, 101, 114, 93, 32, 99, 111, 117, 110,
    116, 61]

inductive SafeHandlerPc
  | load
  | store (count : ℤ)
  | text
  | number
  | newline

/-- `safe_handler`.  `g_sigusr1_count++` loads and stores. -/
def safeHandler (stack : ℤ → UInt8) :
    SafeHandlerPc → SafetyMem → Except Stop (SafetyMem × Option SafeHandlerPc)
  | .load, m => .ok (m, some (.store m.count))
  | .store count, m => do
      let count ← intSucc count
      return ({ m with count := count }, some .text)
  | .text, m => .ok (m.write countText, some .number)
  | .number, m => do
      let bytes ← writeInt stack m.count
      return (m.write bytes, some .newline)
  | .newline, m => .ok (m.write [10], none)

inductive SafetyPc
  | install
  | firing
  /-- Before the three calls of `raise`. -/
  | first
  | second
  | third
  /-- The argument of `printf`, a volatile load. -/
  | final
  | print (count : ℤ)
  | restore
  | done

/-- `section_safety`. -/
def sectionSafety : SafetyPc → SafetyMem → (Sig → Bool) → Option (Action SafetyPc SafetyMem Sig)
  | .install, _, _ => some (.sigaction .SIGUSR1 .handler .firing)
  | .firing, m, _ => some (.access { m with out := m.out ++ [.firing] } .first)
  | .first, _, _ => some (.raise .SIGUSR1 .second)
  | .second, _, _ => some (.raise .SIGUSR1 .third)
  | .third, _, _ => some (.raise .SIGUSR1 .final)
  | .final, m, _ => some (.access m (.print m.count))
  | .print count, m, _ => some (.access { m with out := m.out ++ [.finalCount count] } .restore)
  | .restore, _, _ => some (.sigaction .SIGUSR1 .dfl .done)
  | .done, _, _ => none

def safety (stack : ℤ → UInt8) : Program SafetyPc SafeHandlerPc SafetyMem Sig where
  main := sectionSafety
  entry _ := .load
  handle := safeHandler stack

/-! ## A critical section -/

/-- What the last part of `section_sigaction` prints, with the two calls of `sigprocmask`. -/
inductive CriticalOut
  | blocking
  | masked
  | still
  | unmasked
  | restored
  /-- The line of `sa_simple_handler`. -/
  | received
  deriving DecidableEq

structure CriticalMem where
  prevMask : Sig → Bool
  out : List CriticalOut

/-- `sa_simple_handler`. -/
def saSimpleHandler (_ : Unit) (m : CriticalMem) : Except Stop (CriticalMem × Option Unit) :=
  .ok ({ m with out := m.out ++ [.received] }, none)

inductive CriticalPc
  | announce
  | install
  | block
  | raising
  | still
  | unblock
  | report
  | restore
  | done

/-- `section_sigaction`, from 4c on. -/
def sectionSigaction :
    CriticalPc → CriticalMem → (Sig → Bool) → Option (Action CriticalPc CriticalMem Sig)
  | .announce, m, _ => some (.access { m with out := m.out ++ [.blocking] } .install)
  | .install, _, _ => some (.sigaction .SIGUSR1 .handler .block)
  | .block, m, blocked => some (.procmask (Function.update blocked .SIGUSR1 true)
      ⟨blocked, m.out ++ [.masked]⟩ .raising)
  | .raising, _, _ => some (.raise .SIGUSR1 .still)
  | .still, m, _ => some (.access { m with out := m.out ++ [.still] } .unblock)
  | .unblock, m, _ => some (.procmask m.prevMask { m with out := m.out ++ [.unmasked] } .report)
  | .report, m, _ => some (.access { m with out := m.out ++ [.restored] } .restore)
  | .restore, _, _ => some (.sigaction .SIGUSR1 .dfl .done)
  | .done, _, _ => none

def critical : Program CriticalPc Unit CriticalMem Sig where
  main := sectionSigaction
  entry _ := ()
  handle := saSimpleHandler

/-! ## A timeout -/

/-- What `slow_operation` and the lines after it print, with the two stores to `g_timed_out`. -/
inductive AlarmOut
  | cleared
  | fired
  | iteration (i : ℤ)
  | completed
  | timedOut
  deriving DecidableEq

structure AlarmMem where
  /-- `g_timed_out`. -/
  timedOut : Bool
  out : List AlarmOut

/-- `alarm_handler`. -/
def alarmHandler (_ : Unit) (m : AlarmMem) : Except Stop (AlarmMem × Option Unit) :=
  .ok (⟨true, m.out ++ [.fired]⟩, none)

inductive AlarmPc
  | install
  | clear
  | alarm
  /-- At the head of the loop. -/
  | head (i : ℤ)
  | work (i : ℤ)
  | print (i : ℤ)
  /-- `alarm(0)`, after `slow_operation` has returned. -/
  | cancel (rc : ℤ)
  | report (rc : ℤ)
  | restore
  | done

/-- The handler that `signal` installs. -/
def signalHandler (reset : Bool) : Disposition := if reset then .oneShot else .handler

/-- `section_alarm` up to its first report, with `slow_operation(iterations)`. -/
def sectionAlarm (reset : Bool) (iterations : ℤ) :
    AlarmPc → AlarmMem → (Sig → Bool) → Option (Action AlarmPc AlarmMem Sig)
  | .install, _, _ => some (.sigaction .SIGALRM (signalHandler reset) .clear)
  | .clear, m, _ => some (.access ⟨false, m.out ++ [.cleared]⟩ .alarm)
  | .alarm, m, _ => some (.access m (.head 0))
  | .head i, m, _ =>
      if i < iterations then
        if m.timedOut then some (.access m (.cancel (-1))) else some (.access m (.work i))
      else some (.access m (.cancel 0))
  | .work i, m, _ => some (.access m (.print i))
  | .print i, m, _ => some (.access { m with out := m.out ++ [.iteration i] } (.head (i + 1)))
  | .cancel rc, m, _ => some (.access m (.report rc))
  | .report rc, m, _ =>
      some (.access { m with out := m.out ++ [if rc = 0 then .completed else .timedOut] } .restore)
  | .restore, _, _ => some (.sigaction .SIGALRM .dfl .done)
  | .done, _, _ => none

def alarm (reset : Bool) (iterations : ℤ) : Program AlarmPc Unit AlarmMem Sig where
  main := sectionAlarm reset iterations
  entry _ := ()
  handle := alarmHandler

end CExercises.Signals
