import CExercises.Core.Memory
import CExercises.Core.Transition

/-!
# Signals

A process with one thread, whose code a signal can interrupt between any two of its actions.  A
signal that arrives is pending until it is delivered; a blocked signal stays pending, and however
often it arrives before it is delivered, it is delivered once.  A handler runs with its own signal
blocked, and the mask from before is restored when it returns.  A handler may also be one that runs
once, as `signal` installs it on some systems: it begins with the default action back and nothing
more blocked, and another signal kills the process.

A signal that is not blocked is delivered before the process runs again, so `raise` returns after
the handler has.  Signals may come from outside at any time.

The actions of a handler are single accesses, as those of the code it interrupts.  Where undefined
behaviour would follow, there is no step.

A proof goes by an `Outline`, for code that catches one signal: an assertion for every place of the
interrupted code, and one for every place of the handler together with the place that it has
interrupted.  Each of them has to survive only the next action and the arrival of a signal, and
`Outline.Valid.holds` is the induction over all runs.
-/

namespace CExercises

/-- What a signal does when it is delivered. -/
inductive Disposition
  /-- It kills the process. -/
  | dfl
  | ign
  | handler
  /-- A handler that runs once.  When it begins the default action is back, and the signal is not
  blocked. -/
  | oneShot
  deriving DecidableEq

/-- One action of the code that may be interrupted, and where it goes on. -/
inductive Action (π μ S : Type)
  /-- An access to the variables, or output. -/
  | access (mem : μ) (next : π)
  | raise (s : S) (next : π)
  /-- `sigprocmask`, which may store the mask from before. -/
  | procmask (blocked : S → Bool) (mem : μ) (next : π)
  | sigaction (s : S) (disp : Disposition) (next : π)

/-- The code of a process. -/
structure Program (π η μ S : Type) where
  /-- What is done here, given the variables and the mask.  There is nothing left to do at the
  end. -/
  main : π → μ → (S → Bool) → Option (Action π μ S)
  /-- Where the handler of a signal begins. -/
  entry : S → η
  /-- One access of a handler, and where it goes on unless it returns. -/
  handle : η → μ → Except Stop (μ × Option η)

structure Process (π η μ S : Type) where
  pc : π
  mem : μ
  /-- The handlers that are running, the innermost first, each with the mask that it restores. -/
  frames : List (η × (S → Bool))
  blocked : S → Bool
  pending : S → Bool
  disp : S → Disposition
  killed : Bool

/-- What moves a process. -/
inductive Cause (S : Type)
  | arrive (s : S)
  | deliver (s : S)
  | handler
  | main

section

variable {π η μ S : Type}

/-- No signal is waiting to be delivered. -/
def Process.Quiet (p : Process π η μ S) : Prop := ∀ s, p.pending s = true → p.blocked s = true

lemma Process.quiet_of_none {p : Process π η μ S} (h : ∀ s, p.pending s = false) : p.Quiet := by
  intro s hs
  simp [h] at hs

variable [DecidableEq S]

/-- What an action of the interrupted code does to the process. -/
def Process.perform (p : Process π η μ S) : Action π μ S → Process π η μ S
  | .access mem next => { p with mem := mem, pc := next }
  | .raise s next => { p with pending := Function.update p.pending s true, pc := next }
  | .procmask blocked mem next => { p with blocked := blocked, mem := mem, pc := next }
  | .sigaction s disp next => { p with disp := Function.update p.disp s disp, pc := next }

inductive SignalStep (P : Program π η μ S) :
    Cause S → Process π η μ S → Process π η μ S → Prop
  | arrive {p : Process π η μ S} (s : S) (halive : p.killed = false) :
      SignalStep P (.arrive s) p { p with pending := Function.update p.pending s true }
  | catches {p : Process π η μ S} {s : S} (halive : p.killed = false) (hpend : p.pending s = true)
      (hopen : p.blocked s = false) (hdisp : p.disp s = .handler) :
      SignalStep P (.deliver s) p { p with
        pending := Function.update p.pending s false
        frames := (P.entry s, p.blocked) :: p.frames
        blocked := Function.update p.blocked s true }
  | catchesOnce {p : Process π η μ S} {s : S} (halive : p.killed = false)
      (hpend : p.pending s = true) (hopen : p.blocked s = false) (hdisp : p.disp s = .oneShot) :
      SignalStep P (.deliver s) p { p with
        pending := Function.update p.pending s false
        frames := (P.entry s, p.blocked) :: p.frames
        disp := Function.update p.disp s .dfl }
  | ignores {p : Process π η μ S} {s : S} (halive : p.killed = false) (hpend : p.pending s = true)
      (hopen : p.blocked s = false) (hdisp : p.disp s = .ign) :
      SignalStep P (.deliver s) p { p with pending := Function.update p.pending s false }
  | kills {p : Process π η μ S} {s : S} (halive : p.killed = false) (hpend : p.pending s = true)
      (hopen : p.blocked s = false) (hdisp : p.disp s = .dfl) :
      SignalStep P (.deliver s) p { p with killed := true }
  | handles {p : Process π η μ S} {h h' : η} {saved : S → Bool} {rest : List (η × (S → Bool))}
      {mem : μ} (halive : p.killed = false) (hquiet : p.Quiet)
      (hframes : p.frames = (h, saved) :: rest)
      (haccess : P.handle h p.mem = .ok (mem, some h')) :
      SignalStep P .handler p { p with mem := mem, frames := (h', saved) :: rest }
  | returns {p : Process π η μ S} {h : η} {saved : S → Bool} {rest : List (η × (S → Bool))}
      {mem : μ} (halive : p.killed = false) (hquiet : p.Quiet)
      (hframes : p.frames = (h, saved) :: rest) (haccess : P.handle h p.mem = .ok (mem, none)) :
      SignalStep P .handler p { p with mem := mem, frames := rest, blocked := saved }
  | runs {p : Process π η μ S} {a : Action π μ S} (halive : p.killed = false) (hquiet : p.Quiet)
      (hframes : p.frames = []) (hmain : P.main p.pc p.mem p.blocked = some a) :
      SignalStep P .main p (p.perform a)

/-- A process that starts with nothing blocked and nothing pending. -/
def Process.fresh (pc : π) (mem : μ) : Process π η μ S :=
  ⟨pc, mem, [], fun _ => false, fun _ => false, fun _ => .dfl, false⟩

def signalSystem (P : Program π η μ S) (pc : π) (mem : μ) :
    System (Process π η μ S) (Cause S) where
  init p := p = .fresh pc mem
  step := SignalStep P

lemma Trace.signal {P : Program π η μ S} {pc : π} {mem : μ} {tr : List (Cause S × Process π η μ S)}
    {p p' : Process π η μ S} {c : Cause S} (h : Trace (signalSystem P pc mem) tr p)
    (hstep : SignalStep P c p p') : Trace (signalSystem P pc mem) (tr ++ [(c, p)]) p' :=
  .step c h hstep

/-! ## Proof outlines -/

/-- How often a signal has come from outside. -/
def arrivals (s : S) : List (Cause S × Process π η μ S) → ℕ
  | [] => 0
  | (.arrive t, _) :: tr => arrivals s tr + if t = s then 1 else 0
  | _ :: tr => arrivals s tr

@[simp]
lemma arrivals_append (s : S) (tr tr' : List (Cause S × Process π η μ S)) :
    arrivals s (tr ++ tr') = arrivals s tr + arrivals s tr' := by
  induction tr with
  | nil => simp [arrivals]
  | cons c tr ih =>
      rcases c with ⟨_ | _ | _ | _, _⟩
      · simp only [List.cons_append, arrivals, ih]
        omega
      · exact ih
      · exact ih
      · exact ih

/-- Assertions for code that catches the signal `s`.  They may speak of how often it has come from
outside and whether it is pending. -/
structure Outline (π η μ S : Type) where
  s : S
  /-- The mask and the dispositions at every place of the interrupted code. -/
  mask : π → S → Bool
  disp : π → S → Disposition
  atMain : π → ℕ → Bool → μ → Prop
  atHandler : π → η → ℕ → Bool → μ → Prop

namespace Outline

/-- The outline holds after an action of the interrupted code. -/
def Post (O : Outline π η μ S) (pc : π) (n : ℕ) (pend : Bool) (mem : μ) : Action π μ S → Prop
  | .access mem next => O.mask next = O.mask pc ∧ O.disp next = O.disp pc
      ∧ O.atMain next n pend mem
  | .raise s next => O.mask next = O.mask pc ∧ O.disp next = O.disp pc
      ∧ O.atMain next n (if s = O.s then true else pend) mem
  | .procmask blocked mem next => O.mask next = blocked ∧ O.disp next = O.disp pc
      ∧ O.atMain next n pend mem
  | .sigaction s disp next => O.mask next = O.mask pc
      ∧ O.disp next = Function.update (O.disp pc) s disp ∧ O.atMain next n pend mem

/-- The assertions follow from each other. -/
structure Valid (O : Outline π η μ S) (P : Program π η μ S) : Prop where
  only : ∀ pc t, O.disp pc t ≠ .dfl → t = O.s ∧ O.disp pc t ≠ .ign
  arriveMain : ∀ {pc n pend mem}, O.atMain pc n pend mem → O.atMain pc (n + 1) true mem
  arriveHandler : ∀ {pc h n pend mem}, O.atHandler pc h n pend mem →
    O.atHandler pc h (n + 1) true mem
  enter : ∀ {pc n mem}, O.disp pc O.s ≠ .dfl → O.mask pc O.s = false →
    O.atMain pc n true mem → O.atHandler pc (P.entry O.s) n false mem
  handles : ∀ {pc h h' n pend mem mem'}, O.atHandler pc h n pend mem →
    P.handle h mem = .ok (mem', some h') → O.atHandler pc h' n pend mem'
  returns : ∀ {pc h n pend mem mem'}, O.atHandler pc h n pend mem →
    P.handle h mem = .ok (mem', none) → O.atMain pc n pend mem'
  /-- A pending signal that is not blocked is delivered first. -/
  runs : ∀ {pc n pend mem a}, O.atMain pc n pend mem → (pend = true → O.mask pc O.s = true) →
    P.main pc mem (O.mask pc) = some a → O.Post pc n pend mem a

variable {O : Outline π η μ S} {P : Program π η μ S} {p p' : Process π η μ S} {c : Cause S}
  {pc next : π} {disp : S → Disposition}

/-- The handler was one that runs once, and it has begun. -/
def Spent (O : Outline π η μ S) (pc : π) (disp : S → Disposition) : Prop :=
  O.disp pc O.s = .oneShot ∧ disp = Function.update (O.disp pc) O.s .dfl

/-- The dispositions at a place of the interrupted code. -/
def Disposed (O : Outline π η μ S) (pc : π) (disp : S → Disposition) : Prop :=
  disp = O.disp pc ∨ O.Spent pc disp

/-- The mask and the dispositions while the handler runs. -/
def Running (O : Outline π η μ S) (p : Process π η μ S) : Prop :=
  (p.blocked = Function.update (O.mask p.pc) O.s true ∧ p.disp = O.disp p.pc)
    ∨ (p.blocked = O.mask p.pc ∧ O.Spent p.pc p.disp)

/-- The outline at a process, after `n` signals from outside. -/
def Holds (O : Outline π η μ S) (n : ℕ) (p : Process π η μ S) : Prop :=
  (p.frames = [] ∧ O.Disposed p.pc p.disp ∧ p.blocked = O.mask p.pc
      ∧ O.atMain p.pc n (p.pending O.s) p.mem)
    ∨ ∃ h, p.frames = [(h, O.mask p.pc)] ∧ O.mask p.pc O.s = false ∧ O.Running p
        ∧ O.atHandler p.pc h n (p.pending O.s) p.mem

lemma Running.disposed (h : O.Running p) : O.Disposed p.pc p.disp :=
  h.imp And.right And.right

lemma Spent.apply (h : O.Spent pc disp) : disp O.s = .dfl := by
  rw [h.2, Function.update_self]

/-- Only the signal of the outline is caught, and only before a handler that runs once is spent. -/
lemma Valid.of_caught (hO : O.Valid P) {s : S} (h : O.Disposed pc disp) (hs : disp s ≠ .dfl) :
    s = O.s ∧ disp = O.disp pc := by
  rcases h with rfl | hspent
  · exact ⟨(hO.only pc s hs).1, rfl⟩
  · have hne : s ≠ O.s := by
      rintro rfl
      exact hs hspent.apply
    rw [hspent.2, Function.update_of_ne hne] at hs
    exact absurd (hO.only pc s hs).1 hne

lemma Disposed.congr (h : O.Disposed pc disp) (hkeep : O.disp next = O.disp pc) :
    O.Disposed next disp := by
  rwa [Disposed, Spent, hkeep]

/-- A new disposition takes the place of a handler that is spent. -/
lemma Disposed.sigaction {s : S} {new : Disposition} (h : O.Disposed pc disp)
    (hnext : O.disp next = Function.update (O.disp pc) s new) :
    O.Disposed next (Function.update disp s new) := by
  rcases h with rfl | ⟨honce, rfl⟩
  · exact Or.inl hnext.symm
  · by_cases hs : s = O.s
    · subst hs
      exact Or.inl (by rw [hnext, Function.update_idem])
    · refine Or.inr ⟨?_, ?_⟩
      · rw [hnext, Function.update_of_ne (Ne.symm hs), honce]
      · rw [hnext, Function.update_comm hs]

/-- Where a signal is delivered that does not kill, no handler runs, and the one of the outline is
entered. -/
lemma Valid.enters (hO : O.Valid P) {n : ℕ} {s : S} (h : O.Holds n p) (hpend : p.pending s = true)
    (hopen : p.blocked s = false) (hs : p.disp s ≠ .dfl) :
    s = O.s ∧ p.frames = [] ∧ p.disp = O.disp p.pc ∧ p.blocked = O.mask p.pc
      ∧ O.atHandler p.pc (P.entry O.s) n false p.mem := by
  rcases h with ⟨hframes, hdisp, hmask, hmain⟩ | ⟨h, _, _, hrun, _⟩
  · obtain ⟨rfl, hdisp⟩ := hO.of_caught hdisp hs
    rw [hpend] at hmain
    refine ⟨rfl, hframes, hdisp, hmask, hO.enter ?_ (hmask ▸ hopen) hmain⟩
    rwa [← hdisp]
  · obtain ⟨rfl, _⟩ := hO.of_caught hrun.disposed hs
    rcases hrun with ⟨hmask, _⟩ | ⟨_, hspent⟩
    · simp [hmask] at hopen
    · exact absurd hspent.apply hs

/-- **Step**, other than a signal from outside. -/
lemma Valid.holds_step (hO : O.Valid P) {n : ℕ} (h : O.Holds n p) (hstep : SignalStep P c p p')
    (hc : ∀ s, c ≠ .arrive s) : O.Holds n p' := by
  cases hstep with
  | arrive s halive => exact absurd rfl (hc s)
  | catches halive hpend hopen hcaught =>
      obtain ⟨rfl, hframes, hdisp, hmask, hentered⟩ :=
        hO.enters h hpend hopen (by simp [hcaught])
      refine Or.inr ⟨P.entry O.s, by simp [hframes, hmask], hmask ▸ hopen,
        Or.inl ⟨by simp [hmask], hdisp⟩, ?_⟩
      simpa using hentered
  | catchesOnce halive hpend hopen honce =>
      obtain ⟨rfl, hframes, hdisp, hmask, hentered⟩ := hO.enters h hpend hopen (by simp [honce])
      refine Or.inr ⟨P.entry O.s, by simp [hframes, hmask], hmask ▸ hopen,
        Or.inr ⟨hmask, hdisp ▸ honce, by simp [hdisp]⟩, ?_⟩
      simpa using hentered
  | ignores halive hpend hopen hign =>
      obtain ⟨rfl, _, hdisp, _⟩ := hO.enters h hpend hopen (by simp [hign])
      rw [hdisp] at hign
      exact absurd hign (hO.only p.pc O.s (by simp [hign])).2
  | kills halive hpend hopen hdfl => exact h
  | handles halive hquiet hframes haccess =>
      rcases h with ⟨hnone, _⟩ | ⟨h, hone, hopen, hrun, hhandler⟩
      · simp [hnone] at hframes
      · rw [hone] at hframes
        cases hframes
        exact Or.inr ⟨_, rfl, hopen, hrun, hO.handles hhandler haccess⟩
  | returns halive hquiet hframes haccess =>
      rcases h with ⟨hnone, _⟩ | ⟨h, hone, hopen, hrun, hhandler⟩
      · simp [hnone] at hframes
      · rw [hone] at hframes
        cases hframes
        exact Or.inl ⟨rfl, hrun.disposed, rfl, hO.returns hhandler haccess⟩
  | @runs _ a halive hquiet hframes hmain =>
      rcases h with ⟨_, hdisp, hmask, hat⟩ | ⟨h, hone, _⟩
      · rw [hmask] at hmain
        have hpost := hO.runs hat (fun hpend => hmask ▸ hquiet O.s hpend) hmain
        cases a with
        | access mem next =>
            obtain ⟨hsame, hkeep, hnext⟩ := hpost
            exact Or.inl ⟨hframes, hdisp.congr hkeep, hmask.trans hsame.symm, hnext⟩
        | raise s next =>
            obtain ⟨hsame, hkeep, hnext⟩ := hpost
            refine Or.inl ⟨hframes, hdisp.congr hkeep, hmask.trans hsame.symm, ?_⟩
            show O.atMain next n (Function.update p.pending s true O.s) p.mem
            rw [Function.update_apply]
            simpa [eq_comm] using hnext
        | procmask blocked mem next =>
            obtain ⟨hsame, hkeep, hnext⟩ := hpost
            exact Or.inl ⟨hframes, hdisp.congr hkeep, hsame.symm, hnext⟩
        | sigaction s disp next =>
            obtain ⟨hsame, hkeep, hnext⟩ := hpost
            exact Or.inl ⟨hframes, hdisp.sigaction hkeep, hmask.trans hsame.symm, hnext⟩
      · simp [hone] at hframes

/-- **A signal from outside.** -/
lemma Valid.holds_arrive (hO : O.Valid P) {n : ℕ} (h : O.Holds n p) (s : S) :
    O.Holds (n + if s = O.s then 1 else 0)
      { p with pending := Function.update p.pending s true } := by
  by_cases hs : s = O.s
  · subst hs
    simp only [Holds, Function.update_self, if_true]
    rcases h with ⟨hframes, hdisp, hmask, hmain⟩ | ⟨h, hone, hopen, hrun, hhandler⟩
    · exact Or.inl ⟨hframes, hdisp, hmask, hO.arriveMain hmain⟩
    · exact Or.inr ⟨h, hone, hopen, hrun, hO.arriveHandler hhandler⟩
  · have hother : Function.update p.pending s true O.s = p.pending O.s :=
      Function.update_of_ne (Ne.symm hs) _ _
    rw [if_neg hs, Nat.add_zero]
    simp only [Holds, hother]
    exact h

/-- **Run.**  A valid outline holds along every run. -/
theorem Valid.holds (hO : O.Valid P) {pc : π} {mem : μ} {tr : List (Cause S × Process π η μ S)}
    (hmask : O.mask pc = fun _ => false) (hdisp : O.disp pc = fun _ => .dfl)
    (hmain : O.atMain pc 0 false mem) (h : Trace (signalSystem P pc mem) tr p) :
    O.Holds (arrivals O.s tr) p := by
  induction h with
  | init hinit =>
      cases hinit
      exact Or.inl ⟨rfl, Or.inl hdisp.symm, hmask.symm, hmain⟩
  | step c _ hmove ih =>
      rw [arrivals_append]
      cases c with
      | arrive s =>
          cases hmove
          simpa [arrivals] using hO.holds_arrive ih s
      | deliver s => exact hO.holds_step ih hmove (by simp)
      | handler => exact hO.holds_step ih hmove (by simp)
      | main => exact hO.holds_step ih hmove (by simp)

end Outline

end

end CExercises
