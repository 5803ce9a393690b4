import CExercises.Signals.HandlersDef

/-!
# The critical section and the timeout

Signals come at any time and in any number; what the two sections promise holds all the same.

In the critical section the handler does not run, and the signal from inside is delivered before the
mask is reported restored.  The slow operation looks at its flag before each iteration, and ends at
most one iteration after the alarm.  Where `signal` resets the handler a second alarm kills the
process, and what it has printed until then is right as well.

Each proof is an outline of the section: what is true at every place, and what is true while the
handler runs.
-/

namespace CExercises.Signals

/-- One signal is blocked. -/
def blockedOnly (s : Sig) : Sig → Bool := Function.update (fun _ => false) s true

/-! ## The critical section -/

/-- The output of a run through the critical section, with the handler run `i` times before it,
`j + 1` times when it ends, and `k` times after. -/
def criticalLines (i j k : ℕ) : List CriticalOut :=
  .blocking :: List.replicate i .received ++ [.masked, .still, .unmasked]
    ++ List.replicate (j + 1) .received ++ .restored :: List.replicate k .received

/-- What is true at each place of the critical section.  At the end of it a signal is pending until
the handler has run. -/
def criticalAt : CriticalPc → ℕ → ℕ → CriticalMem → Prop
  | .announce, _, _, m => m.out = []
  | .install, _, _, m => m.out = [.blocking]
  | .block, n, pend, m => ∃ i, m.out = .blocking :: List.replicate i .received ∧ i + pend ≤ n
  | .raising, n, pend, m => (∃ i, m.out = .blocking :: List.replicate i .received ++ [.masked]
      ∧ i + pend ≤ n) ∧ m.prevMask = fun _ => false
  | .still, n, pend, m => (∃ i, m.out = .blocking :: List.replicate i .received ++ [.masked]
      ∧ i ≤ n) ∧ (m.prevMask = fun _ => false) ∧ pend = 1
  | .unblock, n, pend, m =>
      (∃ i, m.out = .blocking :: List.replicate i .received ++ [.masked, .still] ∧ i ≤ n)
        ∧ (m.prevMask = fun _ => false) ∧ pend = 1
  | .report, n, pend, m => ∃ i j,
      m.out = .blocking :: List.replicate i .received ++ [.masked, .still, .unmasked]
        ++ List.replicate j .received ∧ i + j + pend ≤ n + 1 ∧ 1 ≤ j + pend
  | .restore, n, pend, m => ∃ i j k, m.out = criticalLines i j k ∧ i + j + k + pend ≤ n
  | .done, n, _, m => ∃ i j k, m.out = criticalLines i j k ∧ i + j + k ≤ n

def criticalInstalled : CriticalPc → Bool
  | .announce => false
  | .install => false
  | .done => false
  | _ => true

def criticalMasked : CriticalPc → Bool
  | .raising => true
  | .still => true
  | .unblock => true
  | _ => false

/-- The handler that is about to run counts as a pending signal. -/
def criticalOutline : Outline CriticalPc Unit CriticalMem Sig where
  s := .SIGUSR1
  mask pc := if criticalMasked pc then blockedOnly .SIGUSR1 else fun _ => false
  disp pc := if criticalInstalled pc then caught .SIGUSR1 .handler else fun _ => .dfl
  atMain pc n pend m := criticalAt pc n pend.toNat m
  atHandler pc _ n pend m := criticalMasked pc = false ∧ criticalInstalled pc = true
    ∧ criticalAt pc n (pend.toNat + 1) m

/-- One signal more from outside, while `q` handlers run. -/
lemma criticalAt_arrive {pc : CriticalPc} {n p q : ℕ} {m : CriticalMem} (hp : p ≤ 1)
    (hq : q = 0 ∨ criticalMasked pc = false) (h : criticalAt pc n (p + q) m) :
    criticalAt pc (n + 1) (1 + q) m := by
  cases pc with
  | announce => exact h
  | install => exact h
  | block =>
      rcases h with ⟨i, hout, hle⟩
      exact ⟨i, hout, by omega⟩
  | raising =>
      rcases h with ⟨⟨i, hout, hle⟩, hprev⟩
      exact ⟨⟨i, hout, by omega⟩, hprev⟩
  | still =>
      rcases h with ⟨⟨i, hout, hle⟩, hprev, hone⟩
      simp only [criticalMasked, Bool.true_eq_false, or_false] at hq
      exact ⟨⟨i, hout, by omega⟩, hprev, by omega⟩
  | unblock =>
      rcases h with ⟨⟨i, hout, hle⟩, hprev, hone⟩
      simp only [criticalMasked, Bool.true_eq_false, or_false] at hq
      exact ⟨⟨i, hout, by omega⟩, hprev, by omega⟩
  | report =>
      rcases h with ⟨i, j, hout, hle, hone⟩
      exact ⟨i, j, hout, by omega, by omega⟩
  | restore =>
      rcases h with ⟨i, j, k, hout, hle⟩
      exact ⟨i, j, k, hout, by omega⟩
  | done =>
      rcases h with ⟨i, j, k, hout, hle⟩
      exact ⟨i, j, k, hout, by omega⟩

/-- The handler has run. -/
lemma criticalAt_received {pc : CriticalPc} {n p : ℕ} {m : CriticalMem}
    (hmask : criticalMasked pc = false) (hinst : criticalInstalled pc = true)
    (h : criticalAt pc n (p + 1) m) :
    criticalAt pc n p { m with out := m.out ++ [.received] } := by
  cases pc with
  | block =>
      rcases h with ⟨i, hout, hle⟩
      exact ⟨i + 1, by simp [hout, List.replicate_succ'], by omega⟩
  | report =>
      rcases h with ⟨i, j, hout, hle, _⟩
      exact ⟨i, j + 1, by simp [hout, List.replicate_succ'], by omega, by omega⟩
  | restore =>
      rcases h with ⟨i, j, k, hout, hle⟩
      exact ⟨i, j, k + 1, by simp [hout, criticalLines, List.replicate_succ'], by omega⟩
  | announce => cases hinst
  | install => cases hinst
  | done => cases hinst
  | raising => cases hmask
  | still => cases hmask
  | unblock => cases hmask

/-- One action of the section. -/
lemma criticalOutline_runs {pc : CriticalPc} {n : ℕ} {pend : Bool} {mem : CriticalMem}
    {a : Action CriticalPc CriticalMem Sig} (hat : criticalOutline.atMain pc n pend mem)
    (hblocked : pend = true → criticalOutline.mask pc criticalOutline.s = true)
    (hmain : sectionSigaction pc mem (criticalOutline.mask pc) = some a) :
    criticalOutline.Post pc n pend mem a := by
  -- where nothing is blocked, a pending signal has been delivered
  have hquiet : criticalMasked pc = false → pend = false := by
    intro hopen
    cases pend with
    | false => rfl
    | true => simpa [criticalOutline, hopen] using hblocked rfl
  cases pc with
  | announce =>
      cases hmain
      exact ⟨rfl, rfl, by simpa [criticalOutline, criticalAt] using hat⟩
  | install =>
      cases hmain
      obtain rfl := hquiet rfl
      exact ⟨rfl, rfl, 0, by simpa [criticalOutline, criticalAt] using hat, Nat.zero_le n⟩
  | block =>
      cases hmain
      rcases hat with ⟨i, hout, hle⟩
      exact ⟨rfl, rfl, ⟨i, by simp [hout], hle⟩, rfl⟩
  | raising =>
      cases hmain
      rcases hat with ⟨⟨i, hout, hle⟩, hprev⟩
      exact ⟨rfl, rfl, ⟨i, hout, by omega⟩, hprev, rfl⟩
  | still =>
      cases hmain
      rcases hat with ⟨⟨i, hout, hle⟩, hprev, hone⟩
      exact ⟨rfl, rfl, ⟨i, by simp [hout], hle⟩, hprev, hone⟩
  | unblock =>
      cases hmain
      rcases hat with ⟨⟨i, hout, hle⟩, hprev, hone⟩
      exact ⟨hprev.symm, rfl, i, 0, by simp [hout], by omega, by omega⟩
  | report =>
      cases hmain
      obtain rfl := hquiet rfl
      rcases hat with ⟨i, j, hout, hle, hone⟩
      simp only [Bool.toNat_false] at hle hone
      refine ⟨rfl, rfl, i, j - 1, 0, ?_, ?_⟩
      · simp [criticalLines, hout, Nat.sub_add_cancel (show 1 ≤ j by omega)]
      · simp only [Bool.toNat_false]
        omega
  | restore =>
      cases hmain
      rcases hat with ⟨i, j, k, hout, hle⟩
      refine ⟨rfl, ?_, i, j, k, hout, by omega⟩
      funext t
      simp [criticalOutline, criticalInstalled, caught]
  | done => cases hmain

lemma criticalOutline_valid : criticalOutline.Valid critical where
  only := by
    intro pc t h
    simp only [criticalOutline] at h ⊢
    split_ifs at h ⊢
    · exact caught_ne_dfl (by simp) h
    · exact absurd rfl h
  arriveMain := by
    intro pc n pend mem h
    exact criticalAt_arrive (q := 0) (Bool.toNat_le pend) (Or.inl rfl) h
  arriveHandler := by
    intro pc h n pend mem hat
    exact ⟨hat.1, hat.2.1, criticalAt_arrive (Bool.toNat_le pend) (Or.inr hat.1) hat.2.2⟩
  enter := by
    intro pc n mem hdisp hmask hat
    refine ⟨?_, ?_, hat⟩
    · cases pc <;> first | rfl | cases hmask
    · cases pc <;> first | rfl | exact absurd rfl hdisp
  handles := by
    intro pc h h' n pend mem mem' hat hrun
    cases hrun
  returns := by
    intro pc h n pend mem mem' hat hrun
    cases hrun
    exact criticalAt_received hat.1 hat.2.1 hat.2.2
  runs := criticalOutline_runs

/-- The output so far is the beginning of that of a whole run. -/
lemma criticalAt_lines {pc : CriticalPc} {n pend : ℕ} {m : CriticalMem}
    (h : criticalAt pc n pend m) :
    ∃ i j k, i + j + k ≤ n ∧ m.out <+: criticalLines i j k
      ∧ (pc = .done → m.out = criticalLines i j k) := by
  cases pc with
  | announce =>
      refine ⟨0, 0, 0, Nat.zero_le n, ?_, by simp⟩
      rw [show m.out = [] from h]
      exact List.nil_prefix
  | install =>
      refine ⟨0, 0, 0, Nat.zero_le n, ?_, by simp⟩
      rw [show m.out = [.blocking] from h]
      exact ⟨_, rfl⟩
  | block =>
      rcases h with ⟨i, hout, hle⟩
      refine ⟨i, 0, 0, by omega, ⟨[.masked, .still, .unmasked, .received, .restored], ?_⟩, by simp⟩
      simp [hout, criticalLines]
  | raising =>
      rcases h with ⟨⟨i, hout, hle⟩, _⟩
      refine ⟨i, 0, 0, by omega, ⟨[.still, .unmasked, .received, .restored], ?_⟩, by simp⟩
      simp [hout, criticalLines]
  | still =>
      rcases h with ⟨⟨i, hout, hle⟩, _⟩
      refine ⟨i, 0, 0, by omega, ⟨[.still, .unmasked, .received, .restored], ?_⟩, by simp⟩
      simp [hout, criticalLines]
  | unblock =>
      rcases h with ⟨⟨i, hout, hle⟩, _⟩
      refine ⟨i, 0, 0, by omega, ⟨[.unmasked, .received, .restored], ?_⟩, by simp⟩
      simp [hout, criticalLines]
  | report =>
      rcases h with ⟨i, j, hout, hle, hone⟩
      refine ⟨i, j - 1, 0, by omega, ⟨List.replicate (j - 1 + 1 - j) .received ++ [.restored], ?_⟩,
        by simp⟩
      have hsplit : List.replicate j CriticalOut.received
          ++ List.replicate (j - 1 + 1 - j) .received = List.replicate (j - 1 + 1) .received := by
        rw [List.replicate_append_replicate]
        congr 1
        omega
      simp only [hout, criticalLines, ← hsplit, List.append_assoc, List.replicate_zero]
  | restore =>
      rcases h with ⟨i, j, k, hout, hle⟩
      exact ⟨i, j, k, by omega, by rw [hout], fun _ => hout⟩
  | done =>
      rcases h with ⟨i, j, k, hout, hle⟩
      exact ⟨i, j, k, by omega, by rw [hout], fun _ => hout⟩

/-- **A critical section.**  Whenever and however often `SIGUSR1` comes, its handler does not run
while it is blocked, and the signal from inside is handled before the mask is reported restored. -/
theorem critical_section_excludes {tr : List (Cause Sig × Process CriticalPc Unit CriticalMem Sig)}
    {p : Process CriticalPc Unit CriticalMem Sig}
    (h : Trace (signalSystem critical .announce ⟨fun _ => false, []⟩) tr p) :
    ∃ i j k, i + j + k ≤ arrivals .SIGUSR1 tr ∧ p.mem.out <+: criticalLines i j k
      ∧ (p.pc = .done → p.mem.out = criticalLines i j k) := by
  have hstart : criticalOutline.atMain .announce 0 false ⟨fun _ => false, []⟩ := rfl
  rcases criticalOutline_valid.holds rfl rfl hstart h with ⟨_, _, _, hat⟩ | ⟨h, _, _, _, hat⟩
  · exact criticalAt_lines hat
  · exact criticalAt_lines hat.2.2

/-- The signal from inside is pending. -/
theorem critical_section_excludes_pending :
    ∃ (tr : List (Cause Sig × Process CriticalPc Unit CriticalMem Sig))
      (p : Process CriticalPc Unit CriticalMem Sig),
      Trace (signalSystem critical .announce ⟨fun _ => false, []⟩) tr p
        ∧ p.pending .SIGUSR1 = true ∧ p.pc = .unblock ∧ p.mem.out = [.blocking, .masked, .still]
        ∧ ∃ i j k, i + j + k ≤ arrivals .SIGUSR1 tr ∧ p.mem.out <+: criticalLines i j k
          ∧ (p.pc = .done → p.mem.out = criticalLines i j k) := by
  have h₀ : Trace (signalSystem critical .announce ⟨fun _ => false, []⟩) []
      (.fresh .announce ⟨fun _ => false, []⟩) := .init rfl
  have h₁ := h₀.signal (SignalStep.runs rfl (Process.quiet_of_none fun _ => rfl) rfl rfl)
  have h₂ := h₁.signal (SignalStep.runs rfl (Process.quiet_of_none fun _ => rfl) rfl rfl)
  have h₃ := h₂.signal (SignalStep.runs rfl (Process.quiet_of_none fun _ => rfl) rfl rfl)
  have h₄ := h₃.signal (SignalStep.runs rfl (Process.quiet_of_none fun _ => rfl) rfl rfl)
  have hblocked : ∀ s, Function.update (fun _ => false) Sig.SIGUSR1 true s = true →
      Function.update (fun _ => false) Sig.SIGUSR1 true s = true := fun _ hs => hs
  have h₅ := h₄.signal (SignalStep.runs rfl hblocked rfl rfl)
  exact ⟨_, _, h₅, rfl, rfl, rfl, critical_section_excludes h₅⟩

/-! ## The timeout -/

def AlarmOut.isIteration : AlarmOut → Bool
  | .iteration _ => true
  | _ => false

/-- How many iterations end after the first alarm. -/
def late : List AlarmOut → ℕ
  | [] => 0
  | .fired :: rest => rest.countP AlarmOut.isIteration
  | _ :: rest => late rest

lemma late_concat (post : List AlarmOut) (x : AlarmOut) :
    late (post ++ [x]) = late post + if .fired ∈ post ∧ x.isIteration = true then 1 else 0 := by
  induction post with
  | nil => cases x <;> rfl
  | cons y post ih =>
      cases y with
      | fired => simp [late, List.countP_append, List.countP_cons]
      | _ => simpa [late] using ih

/-- What is true of the lines after `g_timed_out = 0`, when `k` iterations have ended. -/
structure Ticks (iterations : ℤ) (k bound : ℕ) (timedOut : Bool) (post : List AlarmOut) :
    Prop where
  iters : post.filter AlarmOut.isIteration = (List.range k).map fun i : ℕ => .iteration i
  flag : timedOut = true ↔ .fired ∈ post
  late : late post ≤ bound
  full : .completed ∈ post → k = iterations.toNat
  cut : .timedOut ∈ post → k < iterations.toNat ∧ .fired ∈ post

/-- The slow operation has not returned, so nothing has been reported. -/
def Unreported (post : List AlarmOut) : Prop := .completed ∉ post ∧ .timedOut ∉ post

section

variable {iterations : ℤ} {k bound : ℕ} {timedOut : Bool} {post : List AlarmOut}

lemma Ticks.fired (h : Ticks iterations k bound timedOut post) :
    Ticks iterations k bound true (post ++ [.fired]) where
  iters := by simpa [AlarmOut.isIteration] using h.iters
  flag := by simp
  late := by
    rw [late_concat]
    simpa [AlarmOut.isIteration] using h.late
  full hfull := h.full (by simpa using hfull)
  cut hcut := ⟨(h.cut (by simpa using hcut)).1, by simp⟩

/-- An iteration that began before the alarm ends. -/
lemma Ticks.iteration (h : Ticks iterations k 0 timedOut post) (hun : Unreported post) :
    Ticks iterations (k + 1) 1 timedOut (post ++ [.iteration k]) where
  iters := by simp [h.iters, List.range_succ, AlarmOut.isIteration]
  flag := by simpa using h.flag
  late := by
    have hlate := h.late
    rw [late_concat]
    split_ifs <;> omega
  full hfull := absurd hfull (by simpa using hun.1)
  cut hcut := absurd hcut (by simpa using hun.2)

/-- The flag has been looked at, and no alarm has gone off. -/
lemma Ticks.strict (h : Ticks iterations k 1 false post) : Ticks iterations k 0 false post where
  iters := h.iters
  flag := h.flag
  late := by
    have hnone : .fired ∉ post := by simpa using h.flag
    clear h
    induction post with
    | nil => exact Nat.zero_le 0
    | cons x post ih =>
        cases x with
        | fired => simp at hnone
        | _ => exact ih (by simpa using hnone)
  full := h.full
  cut := h.cut

lemma Unreported.fired (h : Unreported post) : Unreported (post ++ [.fired]) := by
  simpa [Unreported] using h

lemma Unreported.iteration (h : Unreported post) (i : ℤ) :
    Unreported (post ++ [.iteration i]) := by
  simpa [Unreported] using h

/-- The report fits the iterations. -/
lemma Ticks.report {rc : ℤ} (h : Ticks iterations k 1 timedOut post) (hun : Unreported post)
    (hfull : rc = 0 → k = iterations.toNat)
    (hcut : rc ≠ 0 → k < iterations.toNat ∧ timedOut = true) :
    Ticks iterations k 1 timedOut (post ++ [if rc = 0 then .completed else .timedOut]) := by
  split_ifs with hrc
  · refine ⟨?_, by simpa using h.flag, ?_, fun _ => hfull hrc, fun hmem => ?_⟩
    · simpa [AlarmOut.isIteration] using h.iters
    · rw [late_concat]
      simpa [AlarmOut.isIteration] using h.late
    · exact absurd hmem (by simpa using hun.2)
  · refine ⟨?_, by simpa using h.flag, ?_, fun hmem => ?_, fun _ => ⟨(hcut hrc).1, ?_⟩⟩
    · simpa [AlarmOut.isIteration] using h.iters
    · rw [late_concat]
      simpa [AlarmOut.isIteration] using h.late
    · exact absurd hmem (by simpa using hun.1)
    · simpa using h.flag.mp (hcut hrc).2

end

/-- What every place says of the number of iterations that have ended and of the flag. -/
def alarmPlace (iterations : ℤ) (k : ℕ) (timedOut : Bool) : AlarmPc → Prop
  | .install => False
  | .clear => False
  | .alarm => k = 0
  | .head i => i = k ∧ k ≤ iterations.toNat
  | .work i => i = k ∧ k < iterations.toNat
  | .print i => i = k ∧ k < iterations.toNat
  | .cancel rc => (rc = 0 → k = iterations.toNat)
      ∧ (rc ≠ 0 → k < iterations.toNat ∧ timedOut = true)
  | .report rc => (rc = 0 → k = iterations.toNat)
      ∧ (rc ≠ 0 → k < iterations.toNat ∧ timedOut = true)
  | .restore => True
  | .done => True

/-- The iterations that may have ended after the alarm. -/
def alarmBound : AlarmPc → ℕ
  | .work _ => 0
  | .print _ => 0
  | _ => 1

def alarmReported : AlarmPc → Bool
  | .restore => true
  | .done => true
  | _ => false

/-- After `g_timed_out = 0`. -/
def AlarmAfter (iterations : ℤ) (pc : AlarmPc) (m : AlarmMem) : Prop :=
  ∃ early k post, m.out = List.replicate early .fired ++ .cleared :: post
    ∧ Ticks iterations k (alarmBound pc) m.timedOut post
    ∧ alarmPlace iterations k m.timedOut pc ∧ (alarmReported pc = false → Unreported post)

def alarmAt (iterations : ℤ) (pc : AlarmPc) (m : AlarmMem) : Prop :=
  ((pc = .install ∨ pc = .clear) ∧ ∃ early, m.out = List.replicate early .fired)
    ∨ AlarmAfter iterations pc m

/-- The flag has never been set without a signal. -/
def Sent (n : ℕ) (m : AlarmMem) : Prop := (m.timedOut = true ∨ .fired ∈ m.out) → 0 < n

def alarmInstalled : AlarmPc → Bool
  | .install => false
  | .done => false
  | _ => true

def alarmOutline (reset : Bool) (iterations : ℤ) : Outline AlarmPc Unit AlarmMem Sig where
  s := .SIGALRM
  mask _ := fun _ => false
  disp pc := if alarmInstalled pc then caught .SIGALRM (signalHandler reset) else fun _ => .dfl
  atMain pc n pend m := (pend = true → 0 < n) ∧ Sent n m ∧ alarmAt iterations pc m
  atHandler pc _ n _ m := 0 < n ∧ alarmAt iterations pc m

section

variable {reset : Bool} {iterations : ℤ} {pc : AlarmPc} {n : ℕ} {m : AlarmMem}

lemma signalHandler_ne_ign : signalHandler reset ≠ .ign := by
  cases reset <;> simp [signalHandler]

/-- The flag can only be set. -/
lemma alarmPlace_fired {k : ℕ} {timedOut : Bool} (h : alarmPlace iterations k timedOut pc) :
    alarmPlace iterations k true pc := by
  cases pc with
  | cancel rc => exact ⟨h.1, fun hrc => ⟨(h.2 hrc).1, rfl⟩⟩
  | report rc => exact ⟨h.1, fun hrc => ⟨(h.2 hrc).1, rfl⟩⟩
  | _ => exact h

lemma alarmAt_fired (h : alarmAt iterations pc m) :
    alarmAt iterations pc ⟨true, m.out ++ [.fired]⟩ := by
  rcases h with ⟨hpc, early, hout⟩ | ⟨early, k, post, hout, hticks, hplace, hun⟩
  · exact Or.inl ⟨hpc, early + 1, by simp [hout, List.replicate_succ']⟩
  · exact Or.inr ⟨early, k, post ++ [.fired], by simp [hout], hticks.fired,
      alarmPlace_fired hplace, fun hr => (hun hr).fired⟩

lemma AlarmAfter.of_pc (h : alarmAt iterations pc m) (hinst : pc ≠ .install)
    (hclear : pc ≠ .clear) : AlarmAfter iterations pc m :=
  h.resolve_left fun hpc => hpc.1.elim hinst hclear

/-- **A step of the section.** -/
lemma alarmAt_runs {mem : AlarmMem} {next : AlarmPc} (h : alarmAt iterations pc m)
    (hmain : sectionAlarm reset iterations pc m (fun _ => false) = some (.access mem next)) :
    alarmAt iterations next mem := by
  cases pc with
  | install => cases hmain
  | clear =>
      cases hmain
      rcases h with ⟨_, early, hout⟩ | ⟨_, _, _, _, _, hplace, _⟩
      · exact Or.inr ⟨early, 0, [], by simp [hout],
          ⟨rfl, by simp, Nat.zero_le 1, by simp, by simp⟩, rfl, fun _ => ⟨by simp, by simp⟩⟩
      · exact absurd hplace id
  | alarm =>
      cases hmain
      obtain ⟨early, k, post, hout, hticks, hplace, hun⟩ := AlarmAfter.of_pc h (by simp) (by simp)
      obtain rfl : k = 0 := hplace
      exact Or.inr ⟨early, 0, post, hout, hticks, ⟨rfl, Nat.zero_le _⟩, hun⟩
  | head i =>
      obtain ⟨early, k, post, hout, hticks, ⟨rfl, hle⟩, hun⟩ :=
        AlarmAfter.of_pc h (by simp) (by simp)
      simp only [sectionAlarm] at hmain
      split_ifs at hmain with hlt hflag
      · cases hmain
        exact Or.inr ⟨early, k, post, hout, hticks, ⟨by simp, fun _ => ⟨by omega, hflag⟩⟩, hun⟩
      · cases hmain
        have hticks' : Ticks iterations k 0 m.timedOut post := by
          rw [Bool.not_eq_true] at hflag
          rw [hflag] at hticks ⊢
          exact hticks.strict
        exact Or.inr ⟨early, k, post, hout, hticks', ⟨rfl, by omega⟩, hun⟩
      · cases hmain
        exact Or.inr ⟨early, k, post, hout, hticks, ⟨fun _ => by omega, by simp⟩, hun⟩
  | work i =>
      cases hmain
      obtain ⟨early, k, post, hout, hticks, hplace, hun⟩ := AlarmAfter.of_pc h (by simp) (by simp)
      exact Or.inr ⟨early, k, post, hout, hticks, hplace, hun⟩
  | print i =>
      cases hmain
      obtain ⟨early, k, post, hout, hticks, ⟨rfl, hlt⟩, hun⟩ :=
        AlarmAfter.of_pc h (by simp) (by simp)
      have hticks' := hticks.iteration (hun rfl)
      exact Or.inr ⟨early, k + 1, _, by simp [hout], hticks', ⟨by simp, hlt⟩,
        fun _ => (hun rfl).iteration k⟩
  | cancel rc =>
      cases hmain
      obtain ⟨early, k, post, hout, hticks, hplace, hun⟩ := AlarmAfter.of_pc h (by simp) (by simp)
      exact Or.inr ⟨early, k, post, hout, hticks, hplace, hun⟩
  | report rc =>
      cases hmain
      obtain ⟨early, k, post, hout, hticks, ⟨hfull, hcut⟩, hun⟩ :=
        AlarmAfter.of_pc h (by simp) (by simp)
      exact Or.inr ⟨early, k, _, by simp [hout], hticks.report (hun rfl) hfull hcut, trivial,
        by simp [alarmReported]⟩
  | restore => cases hmain
  | done => cases hmain

/-- Between the first call of `signal` and the last everything is an access. -/
lemma sectionAlarm_access {a : Action AlarmPc AlarmMem Sig} {blocked : Sig → Bool}
    (hinst : pc ≠ .install) (hrest : pc ≠ .restore)
    (hmain : sectionAlarm reset iterations pc m blocked = some a) :
    ∃ mem next, a = .access mem next ∧ alarmInstalled pc = true ∧ alarmInstalled next = true := by
  cases pc with
  | install => exact absurd rfl hinst
  | restore => exact absurd rfl hrest
  | head i =>
      simp only [sectionAlarm] at hmain
      split_ifs at hmain
      all_goals
        cases hmain
        exact ⟨_, _, rfl, rfl, rfl⟩
  | done => cases hmain
  | _ =>
      cases hmain
      exact ⟨_, _, rfl, rfl, rfl⟩

/-- Main never sets the flag. -/
lemma Sent.access {mem : AlarmMem} {next : AlarmPc} {blocked : Sig → Bool} (h : Sent n m)
    (hmain : sectionAlarm reset iterations pc m blocked = some (.access mem next)) :
    Sent n mem := by
  cases pc with
  | install => cases hmain
  | restore => cases hmain
  | done => cases hmain
  | head i =>
      simp only [sectionAlarm] at hmain
      split_ifs at hmain
      all_goals
        cases hmain
        exact h
  | report rc =>
      cases hmain
      intro hset
      refine h ?_
      by_cases hrc : rc = 0 <;> simpa [hrc] using hset
  | _ =>
      cases hmain
      simpa [Sent] using fun hset => h (by simp [hset])

lemma alarmOutline_valid : (alarmOutline reset iterations).Valid (alarm reset iterations) where
  only := by
    intro pc t h
    simp only [alarmOutline] at h ⊢
    split_ifs at h ⊢
    · exact caught_ne_dfl signalHandler_ne_ign h
    · exact absurd rfl h
  arriveMain := by
    intro pc n pend mem h
    exact ⟨fun _ => Nat.succ_pos n, fun _ => Nat.succ_pos n, h.2.2⟩
  arriveHandler := by
    intro pc h n pend mem hat
    exact ⟨Nat.succ_pos n, hat.2⟩
  enter := by
    intro pc n mem _ _ hat
    exact ⟨hat.1 rfl, hat.2.2⟩
  handles := by
    intro pc h h' n pend mem mem' hat hrun
    cases hrun
  returns := by
    intro pc h n pend mem mem' hat hrun
    cases hrun
    exact ⟨fun _ => hat.1, fun _ => hat.1, alarmAt_fired hat.2⟩
  runs := by
    rintro pc n pend mem a ⟨hpend, hsent, hat⟩ _ hmain
    by_cases hpc : pc = .install ∨ pc = .restore
    · rcases hpc with rfl | rfl
      · cases hmain
        refine ⟨rfl, rfl, hpend, hsent, ?_⟩
        rcases hat with ⟨_, hout⟩ | ⟨_, _, _, _, _, hplace, _⟩
        · exact Or.inl ⟨Or.inr rfl, hout⟩
        · exact absurd hplace id
      · cases hmain
        obtain ⟨early, k, post, hout, hticks, _, _⟩ := AlarmAfter.of_pc hat (by simp) (by simp)
        refine ⟨rfl, ?_, hpend, hsent,
          Or.inr ⟨early, k, post, hout, hticks, trivial, by simp [alarmReported]⟩⟩
        funext t
        simp [alarmOutline, alarmInstalled, caught]
    · rw [not_or] at hpc
      obtain ⟨mem', next, rfl, hbefore, hafter⟩ := sectionAlarm_access hpc.1 hpc.2 hmain
      refine ⟨rfl, ?_, hpend, hsent.access hmain, alarmAt_runs hat hmain⟩
      simp only [alarmOutline, hbefore, hafter]

/-- **A timeout.**  Whether `signal` resets the handler or not, and whenever `SIGALRM` comes: the
lines of `slow_operation` are those of the first iterations, and at most one of them comes after the
alarm.  The operation is reported completed only after all iterations, and timed out only when some
are missing and the alarm has gone off.  Without a `SIGALRM` the flag is never set. -/
theorem slow_operation_stops (reset : Bool)
    {tr : List (Cause Sig × Process AlarmPc Unit AlarmMem Sig)}
    {p : Process AlarmPc Unit AlarmMem Sig}
    (h : Trace (signalSystem (alarm reset iterations) .install ⟨false, []⟩) tr p) :
    (arrivals .SIGALRM tr = 0 → p.mem.timedOut = false ∧ .fired ∉ p.mem.out)
      ∧ (((p.pc = .install ∨ p.pc = .clear) ∧ ∃ early, p.mem.out = List.replicate early .fired)
        ∨ ∃ early k post, p.mem.out = List.replicate early .fired ++ .cleared :: post
            ∧ (p.mem.timedOut = true ↔ .fired ∈ post)
            ∧ post.filter AlarmOut.isIteration = (List.range k).map (fun i : ℕ => .iteration i)
            ∧ late post ≤ 1 ∧ (.completed ∈ post → k = iterations.toNat)
            ∧ (.timedOut ∈ post → k < iterations.toNat ∧ .fired ∈ post)) := by
  have hstart : (alarmOutline reset iterations).atMain .install 0 false ⟨false, []⟩ :=
    ⟨by simp, by simp [Sent], Or.inl ⟨Or.inl rfl, 0, rfl⟩⟩
  have hplace : (0 < arrivals .SIGALRM tr ∨ Sent (arrivals .SIGALRM tr) p.mem)
      ∧ alarmAt iterations p.pc p.mem := by
    rcases alarmOutline_valid.holds rfl rfl hstart h with ⟨_, _, _, _, hat⟩ | ⟨h, _, _, _, hat⟩
    · exact ⟨Or.inr hat.1, hat.2⟩
    · exact ⟨Or.inl hat.1, hat.2⟩
  refine ⟨fun hnone => ?_, ?_⟩
  · rw [hnone] at hplace
    have hunset : ¬ (p.mem.timedOut = true ∨ .fired ∈ p.mem.out) := fun hset =>
      hplace.1.elim (lt_irrefl 0) fun hsent => lt_irrefl 0 (hsent hset)
    simpa using hunset
  · rcases hplace.2 with hbefore | ⟨early, k, post, hout, hticks, _, _⟩
    · exact Or.inl hbefore
    · have hbound : alarmBound p.pc ≤ 1 := by cases p.pc <;> simp [alarmBound]
      exact Or.inr ⟨early, k, post, hout, hticks.flag, hticks.iters, hticks.late.trans hbound,
        hticks.full, hticks.cut⟩

end

/-- The alarm goes off during the first iteration, and the handler is reset. -/
theorem slow_operation_stops_first :
    ∃ (tr : List (Cause Sig × Process AlarmPc Unit AlarmMem Sig))
      (p : Process AlarmPc Unit AlarmMem Sig),
      Trace (signalSystem (alarm true 5) .install ⟨false, []⟩) tr p
        ∧ p.mem = ⟨true, [.cleared, .fired, .iteration 0, .timedOut]⟩
        ∧ (arrivals .SIGALRM tr = 0 → p.mem.timedOut = false ∧ .fired ∉ p.mem.out)
        ∧ (((p.pc = .install ∨ p.pc = .clear) ∧ ∃ early, p.mem.out = List.replicate early .fired)
          ∨ ∃ early k post, p.mem.out = List.replicate early .fired ++ .cleared :: post
              ∧ (p.mem.timedOut = true ↔ .fired ∈ post)
              ∧ post.filter AlarmOut.isIteration = (List.range k).map (fun i : ℕ => .iteration i)
              ∧ late post ≤ 1 ∧ (.completed ∈ post → k = (5 : ℤ).toNat)
              ∧ (.timedOut ∈ post → k < (5 : ℤ).toNat ∧ .fired ∈ post)) := by
  have h₀ : Trace (signalSystem (alarm true 5) .install ⟨false, []⟩) []
      (.fresh .install ⟨false, []⟩) := .init rfl
  have h₁ := h₀.signal (SignalStep.runs rfl (Process.quiet_of_none fun _ => rfl) rfl rfl)
  have h₂ := h₁.signal (SignalStep.runs rfl (Process.quiet_of_none fun _ => rfl) rfl rfl)
  have h₃ := h₂.signal (SignalStep.runs rfl (Process.quiet_of_none fun _ => rfl) rfl rfl)
  have h₄ := h₃.signal (SignalStep.runs rfl (Process.quiet_of_none fun _ => rfl) rfl rfl)
  have h₅ := h₄.signal (SignalStep.runs rfl (Process.quiet_of_none fun _ => rfl) rfl rfl)
  have h₆ := h₅.signal (SignalStep.arrive .SIGALRM rfl)
  have h₇ := h₆.signal (SignalStep.catchesOnce (s := .SIGALRM) rfl rfl rfl rfl)
  have hnone : ∀ s, Function.update (Function.update (fun _ => false) Sig.SIGALRM true)
      Sig.SIGALRM false s = false := by
    intro s
    cases s <;> rfl
  have h₈ := h₇.signal (SignalStep.returns rfl (Process.quiet_of_none hnone) rfl rfl)
  have h₉ := h₈.signal (SignalStep.runs rfl (Process.quiet_of_none hnone) rfl rfl)
  have h₁₀ := h₉.signal (SignalStep.runs rfl (Process.quiet_of_none hnone) rfl rfl)
  have h₁₁ := h₁₀.signal (SignalStep.runs rfl (Process.quiet_of_none hnone) rfl rfl)
  have h₁₂ := h₁₁.signal (SignalStep.runs rfl (Process.quiet_of_none hnone) rfl rfl)
  exact ⟨_, _, h₁₂, rfl, slow_operation_stops true h₁₂⟩

end CExercises.Signals
