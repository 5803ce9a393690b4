import CExercises.Signals.HandlersDef
import CExercises.Signals.WriteInt

/-!
# The handler that counts

`safe_handler` increments a counter that the main program reads.  It runs with its own signal
blocked, so the load and the store of `g_sigusr1_count++` belong together and no count is lost; and
what it writes comes in whole reports, numbered one by one.

`raise` returns after the handler has run, so the three calls make at least three reports.  Signals
from outside add to them, and may merge with each other or with one of the three.  One may also come
after main has loaded the count, and before its line.
-/

namespace CExercises.Signals

/-! ## Reports -/

/-- What the handler has written. -/
def wrote : List SafetyOut → List (List UInt8) :=
  List.filterMap fun
    | .wrote bytes => some bytes
    | _ => none

/-- The reports of so many runs of the handler. -/
inductive Reports : ℕ → List (List UInt8) → Prop
  | nil : Reports 0 []
  | report {c : ℕ} {ws : List (List UInt8)} {number : List UInt8} (h : Reports c ws)
      (hnumber : IsDecimal number (c + 1 : ℕ)) :
      Reports (c + 1) (ws ++ [countText, number, [10]])

/-- A count that main has loaded: the number of the reports up to then, at least one for each call
of `raise`.  The reports may have become more since, at most one for each signal from outside. -/
def Loaded (n : ℕ) (v : ℤ) (ws : List (List UInt8)) : Prop :=
  ∃ c c' : ℕ, v = c ∧ 3 ≤ c ∧ c ≤ c' ∧ c' ≤ 3 + n ∧ Reports c' ws

lemma Loaded.mono {n n' : ℕ} {v : ℤ} {ws : List (List UInt8)} (h : Loaded n v ws) (hle : n ≤ n') :
    Loaded n' v ws := by
  obtain ⟨c, c', hv, hlow, hcc', hhigh, hreports⟩ := h
  exact ⟨c, c', hv, hlow, hcc', by omega, hreports⟩

/-- What has been printed was loaded before. -/
def FinalOk (n : ℕ) (out : List SafetyOut) : Prop :=
  ∀ before v, before ++ [.finalCount v] <+: out → Loaded n v (wrote before)

lemma FinalOk.mono {n n' : ℕ} {out : List SafetyOut} (h : FinalOk n out) (hle : n ≤ n') :
    FinalOk n' out := fun before v hprefix => (h before v hprefix).mono hle

/-- Something else is written. -/
lemma FinalOk.concat {n : ℕ} {out : List SafetyOut} {x : SafetyOut} (h : FinalOk n out)
    (hx : ∀ v, x ≠ .finalCount v) : FinalOk n (out ++ [x]) := by
  intro before v hprefix
  rcases List.prefix_concat_iff.mp hprefix with heq | hprefix
  · obtain ⟨_, hlast⟩ := List.append_inj' heq rfl
    cases hlast
    exact absurd rfl (hx v)
  · exact h before v hprefix

/-- The count is printed. -/
lemma FinalOk.concat_final {n : ℕ} {v : ℤ} {out : List SafetyOut} (h : FinalOk n out)
    (hloaded : Loaded n v (wrote out)) : FinalOk n (out ++ [.finalCount v]) := by
  intro before v' hprefix
  rcases List.prefix_concat_iff.mp hprefix with heq | hprefix
  · obtain ⟨rfl, hlast⟩ := List.append_inj' heq rfl
    cases hlast
    exact hloaded
  · exact h before v' hprefix

/-! ## The outline -/

/-- How many calls of `raise` have been made. -/
def raised : SafetyPc → ℕ
  | .install => 0
  | .firing => 0
  | .first => 0
  | .second => 1
  | .third => 2
  | .final => 3
  | .print _ => 3
  | .restore => 3
  | .done => 3

/-- With `c` reports and `pend` to come, after `n` signals from outside.  What main has loaded may
be out of date, but is never too much. -/
structure Counted (pc : SafetyPc) (n pend c : ℕ) : Prop where
  high : c + pend ≤ raised pc + n
  low : raised pc ≤ c + pend
  held : ∀ v, pc = .print v → ∃ c₀ : ℕ, v = c₀ ∧ 3 ≤ c₀ ∧ c₀ ≤ c

/-- While the handler runs: what it has written since the last whole report, and what the counter
holds. -/
def safeHandlerAt : SafeHandlerPc → ℕ → ℤ → List (List UInt8) → Prop
  | .load, c, count, ws => count = c ∧ ws = []
  | .store loaded, c, count, ws => loaded = c ∧ count = c ∧ ws = []
  | .text, c, count, ws => (count = (c + 1 : ℕ) ∧ count ≤ INT_MAX) ∧ ws = []
  | .number, c, count, ws => (count = (c + 1 : ℕ) ∧ count ≤ INT_MAX) ∧ ws = [countText]
  | .newline, c, count, ws => count = (c + 1 : ℕ)
      ∧ ∃ number, ws = [countText, number] ∧ IsDecimal number (c + 1 : ℕ)

def safetyInstalled : SafetyPc → Bool
  | .install => false
  | .done => false
  | _ => true

def safetyOutline : Outline SafetyPc SafeHandlerPc SafetyMem Sig where
  s := .SIGUSR1
  mask _ := fun _ => false
  disp pc := if safetyInstalled pc then caught .SIGUSR1 .handler else fun _ => .dfl
  atMain pc n pend m := FinalOk n m.out ∧ ∃ c : ℕ, m.count = c ∧ Reports c (wrote m.out)
    ∧ Counted pc n pend.toNat c
  atHandler pc h n pend m := FinalOk n m.out ∧ ∃ c ws ws', wrote m.out = ws ++ ws' ∧ Reports c ws
    ∧ safeHandlerAt h c m.count ws' ∧ Counted pc n (pend.toNat + 1) c

variable {stack : ℤ → UInt8}

section

variable {pc next : SafetyPc} {n p q c : ℕ}

lemma Counted.arrive (hp : p ≤ 1) (h : Counted pc n (p + q) c) : Counted pc (n + 1) (1 + q) c := by
  have hhigh := h.high
  have hlow := h.low
  exact ⟨by omega, by omega, h.held⟩

/-- A run of the handler has ended. -/
lemma Counted.report (h : Counted pc n (p + 1) c) : Counted pc n p (c + 1) := by
  have hhigh := h.high
  have hlow := h.low
  refine ⟨by omega, by omega, fun v hpc => ?_⟩
  obtain ⟨c₀, hv, hge, hle⟩ := h.held v hpc
  exact ⟨c₀, hv, hge, by omega⟩

/-- A step of main, which may be a call of `raise`, with nothing pending. -/
lemma Counted.move (h : Counted pc n 0 c) (hraised : raised next = raised pc + p)
    (hnext : ∀ v, next ≠ .print v) : Counted next n p c := by
  have hhigh := h.high
  have hlow := h.low
  exact ⟨by omega, by omega, fun v hpc => absurd hpc (hnext v)⟩

end

lemma wrote_concat (out : List SafetyOut) (x : SafetyOut) :
    wrote (out ++ [x]) = wrote out ++ wrote [x] :=
  List.filterMap_append

section

variable {pc : SafetyPc} {h h' : SafeHandlerPc} {n : ℕ} {pend : Bool} {mem mem' : SafetyMem}
  {a : Action SafetyPc SafetyMem Sig}

/-- One access of the handler. -/
lemma safetyOutline_handles (hat : safetyOutline.atHandler pc h n pend mem)
    (hrun : safeHandler stack h mem = .ok (mem', some h')) :
    safetyOutline.atHandler pc h' n pend mem' := by
  obtain ⟨hfinal, c, ws, ws', hwrote, hreports, hat, hcounted⟩ := hat
  cases h with
  | load =>
      cases hrun
      exact ⟨hfinal, c, ws, ws', hwrote, hreports, ⟨hat.1, hat.1, hat.2⟩, hcounted⟩
  | store loaded =>
      obtain ⟨rfl, hcount, rfl⟩ := hat
      obtain ⟨v, hsucc, hrun⟩ := bind_eq_ok.mp hrun
      cases hrun
      exact ⟨hfinal, c, ws, [], hwrote, hreports,
        ⟨⟨by simpa using intSucc_inv hsucc, intSucc_le_max hsucc⟩, rfl⟩, hcounted⟩
  | text =>
      cases hrun
      obtain ⟨hcount, rfl⟩ := hat
      refine ⟨hfinal.concat (by simp), c, ws, [countText], ?_, hreports, ⟨hcount, rfl⟩, hcounted⟩
      rw [SafetyMem.write, wrote_concat, hwrote]
      simp [wrote]
  | number =>
      obtain ⟨⟨hcount, hmax⟩, rfl⟩ := hat
      obtain ⟨bytes, hwrite, hrun⟩ := bind_eq_ok.mp hrun
      cases hrun
      have hdec : IsDecimal bytes (c + 1 : ℕ) := by
        rw [hcount] at hwrite hmax
        obtain ⟨bs, hbs, hdec⟩ := writeInt_of_ne stack (fitsInt_natCast hmax)
          (by unfold INT_MIN; omega)
        rw [hwrite] at hbs
        cases hbs
        exact hdec
      refine ⟨hfinal.concat (by simp), c, ws, [countText, bytes], ?_, hreports,
        ⟨hcount, bytes, rfl, hdec⟩, hcounted⟩
      rw [SafetyMem.write, wrote_concat, hwrote]
      simp [wrote]
  | newline => cases hrun

/-- The handler returns, and its report is whole. -/
lemma safetyOutline_returns (hat : safetyOutline.atHandler pc h n pend mem)
    (hrun : safeHandler stack h mem = .ok (mem', none)) : safetyOutline.atMain pc n pend mem' := by
  obtain ⟨hfinal, c, ws, ws', hwrote, hreports, hat, hcounted⟩ := hat
  cases h with
  | load => cases hrun
  | store loaded =>
      obtain ⟨v, _, hrun⟩ := bind_eq_ok.mp hrun
      cases hrun
  | text => cases hrun
  | number =>
      obtain ⟨bytes, _, hrun⟩ := bind_eq_ok.mp hrun
      cases hrun
  | newline =>
      cases hrun
      obtain ⟨hcount, number, rfl, hdec⟩ := hat
      refine ⟨hfinal.concat (by simp), c + 1, hcount, ?_, hcounted.report⟩
      rw [SafetyMem.write, wrote_concat, hwrote]
      simpa [wrote] using hreports.report hdec

/-- One action of main. -/
lemma safetyOutline_runs (hat : safetyOutline.atMain pc n pend mem)
    (hblocked : pend = true → safetyOutline.mask pc safetyOutline.s = true)
    (hmain : sectionSafety pc mem (safetyOutline.mask pc) = some a) :
    safetyOutline.Post pc n pend mem a := by
  obtain ⟨hfinal, c, hcount, hreports, hcounted⟩ := hat
  -- nothing is blocked, so a pending signal has been delivered
  have hquiet : pend = false := by simpa [safetyOutline] using hblocked
  subst hquiet
  cases pc with
  | install =>
      cases hmain
      exact ⟨rfl, rfl, hfinal, c, hcount, hreports, hcounted.move rfl (by simp)⟩
  | firing =>
      cases hmain
      refine ⟨rfl, rfl, hfinal.concat (by simp), c, hcount, ?_, hcounted.move rfl (by simp)⟩
      rw [wrote_concat]
      simpa [wrote] using hreports
  | first =>
      cases hmain
      exact ⟨rfl, rfl, hfinal, c, hcount, hreports, hcounted.move rfl (by simp)⟩
  | second =>
      cases hmain
      exact ⟨rfl, rfl, hfinal, c, hcount, hreports, hcounted.move rfl (by simp)⟩
  | third =>
      cases hmain
      exact ⟨rfl, rfl, hfinal, c, hcount, hreports, hcounted.move rfl (by simp)⟩
  | final =>
      cases hmain
      refine ⟨rfl, rfl, hfinal, c, hcount, hreports, hcounted.high, hcounted.low, ?_⟩
      rintro v ⟨rfl⟩
      exact ⟨c, hcount, hcounted.low, Nat.le_refl c⟩
  | print v =>
      cases hmain
      obtain ⟨c₀, hv, hge, hle⟩ := hcounted.held v rfl
      refine ⟨rfl, rfl, ?_, c, hcount, ?_, hcounted.move rfl (by simp)⟩
      · exact hfinal.concat_final ⟨c₀, c, hv, hge, hle, hcounted.high, hreports⟩
      · rw [wrote_concat]
        simpa [wrote] using hreports
  | restore =>
      cases hmain
      refine ⟨rfl, ?_, hfinal, c, hcount, hreports, hcounted.move rfl (by simp)⟩
      funext t
      simp [safetyOutline, safetyInstalled, caught]
  | done => cases hmain

end

lemma safetyOutline_valid : safetyOutline.Valid (safety stack) where
  only := by
    intro pc t h
    simp only [safetyOutline] at h ⊢
    split_ifs at h ⊢
    · exact caught_ne_dfl (by simp) h
    · exact absurd rfl h
  arriveMain := by
    rintro pc n pend mem ⟨hfinal, c, hcount, hreports, hcounted⟩
    exact ⟨hfinal.mono (Nat.le_succ n), c, hcount, hreports,
      hcounted.arrive (q := 0) (Bool.toNat_le pend)⟩
  arriveHandler := by
    rintro pc h n pend mem ⟨hfinal, c, ws, ws', hwrote, hreports, hat, hcounted⟩
    exact ⟨hfinal.mono (Nat.le_succ n), c, ws, ws', hwrote, hreports, hat,
      hcounted.arrive (Bool.toNat_le pend)⟩
  enter := by
    rintro pc n mem _ _ ⟨hfinal, c, hcount, hreports, hcounted⟩
    exact ⟨hfinal, c, wrote mem.out, [], by simp, hreports, ⟨hcount, rfl⟩, hcounted⟩
  handles := safetyOutline_handles
  returns := safetyOutline_returns
  runs := safetyOutline_runs

/-! ## What main has loaded -/

/-- Main has loaded `v` from the counter. -/
def MainLoaded (tr : List (Cause Sig × Process SafetyPc SafeHandlerPc SafetyMem Sig)) (v : ℤ) : Prop :=
  ∃ s, (Cause.main, s) ∈ tr ∧ s.pc = .final ∧ s.frames = [] ∧ s.mem.count = v

/-- The handler does not print a count for main. -/
lemma safeHandler_finalCount {h : SafeHandlerPc} {next : Option SafeHandlerPc} {m m' : SafetyMem}
    {v : ℤ} (hrun : safeHandler stack h m = .ok (m', next)) (hv : .finalCount v ∈ m'.out) :
    .finalCount v ∈ m.out := by
  cases h with
  | load =>
      cases hrun
      exact hv
  | store loaded =>
      obtain ⟨_, _, hrun⟩ := bind_eq_ok.mp hrun
      cases hrun
      exact hv
  | number =>
      obtain ⟨_, _, hrun⟩ := bind_eq_ok.mp hrun
      cases hrun
      simpa [SafetyMem.write] using hv
  | _ =>
      cases hrun
      simpa [SafetyMem.write] using hv

/-- A step of main loads a count, or leaves it where it was, or prints it. -/
lemma sectionSafety_finalCount {p : Process SafetyPc SafeHandlerPc SafetyMem Sig}
    {a : Action SafetyPc SafetyMem Sig} {v : ℤ}
    (hmain : sectionSafety p.pc p.mem p.blocked = some a)
    (hv : (p.perform a).pc = .print v ∨ .finalCount v ∈ (p.perform a).mem.out) :
    (p.pc = .print v ∨ .finalCount v ∈ p.mem.out) ∨ (p.pc = .final ∧ p.mem.count = v) := by
  obtain ⟨pc, m, frames, blocked, pending, disp, killed⟩ := p
  cases pc with
  | done => cases hmain
  | final =>
      cases hmain
      rcases hv with hv | hv
      · cases hv
        exact Or.inr ⟨rfl, rfl⟩
      · exact Or.inl (Or.inr hv)
  | print v' =>
      cases hmain
      simpa [Process.perform, eq_comm, or_comm] using hv
  | _ =>
      cases hmain
      simpa [Process.perform] using hv

/-- A count that main holds or has printed is one that it has loaded. -/
lemma load_of_held {tr : List (Cause Sig × Process SafetyPc SafeHandlerPc SafetyMem Sig)}
    {p : Process SafetyPc SafeHandlerPc SafetyMem Sig} {v : ℤ}
    (h : Trace (signalSystem (safety stack) .install ⟨0, []⟩) tr p)
    (hv : p.pc = .print v ∨ .finalCount v ∈ p.mem.out) : MainLoaded tr v := by
  induction h with
  | init hinit =>
      cases hinit
      simp [Process.fresh] at hv
  | @step tr p p' c _ hmove ih =>
      suffices hbefore : (p.pc = .print v ∨ .finalCount v ∈ p.mem.out)
          ∨ (c = .main ∧ p.pc = .final ∧ p.frames = [] ∧ p.mem.count = v) by
        rcases hbefore with hbefore | ⟨rfl, hload⟩
        · obtain ⟨s, hs, hload⟩ := ih hbefore
          exact ⟨s, List.mem_append_left _ hs, hload⟩
        · exact ⟨p, by simp, hload⟩
      cases hmove with
      | handles _ _ _ haccess => exact Or.inl (hv.imp id (safeHandler_finalCount haccess))
      | returns _ _ _ haccess => exact Or.inl (hv.imp id (safeHandler_finalCount haccess))
      | runs _ _ hframes hmain =>
          rcases sectionSafety_finalCount hmain hv with hbefore | ⟨hpc, hcount⟩
          · exact Or.inl hbefore
          · exact Or.inr ⟨rfl, hpc, hframes, hcount⟩
      | _ => exact Or.inl hv

/-- Between two runs of the handler. -/
lemma reports_of_trace {tr : List (Cause Sig × Process SafetyPc SafeHandlerPc SafetyMem Sig)}
    {p : Process SafetyPc SafeHandlerPc SafetyMem Sig}
    (h : Trace (signalSystem (safety stack) .install ⟨0, []⟩) tr p) :
    FinalOk (arrivals .SIGUSR1 tr) p.mem.out
      ∧ (p.frames = [] → ∃ c : ℕ, p.mem.count = c ∧ Reports c (wrote p.mem.out)) := by
  have hstart : safetyOutline.atMain .install 0 false ⟨0, []⟩ := by
    refine ⟨fun before v hprefix => ?_, 0, rfl, .nil, Nat.le_refl 0, Nat.le_refl 0, by simp⟩
    simp at hprefix
  rcases safetyOutline_valid.holds rfl rfl hstart h with ⟨_, _, _, hfinal, c, hcount, hreports, _⟩
    | ⟨h, hone, _, _, hfinal, _⟩
  · exact ⟨hfinal, fun _ => ⟨c, hcount, hreports⟩⟩
  · exact ⟨hfinal, fun hnone => by simp [hnone] at hone⟩

/-- **No count is lost.**  However often `SIGUSR1` comes from outside: between two runs of the
handler the counter is the number of its reports, which are whole and numbered one by one.  The
count that the main program prints is the number of reports at the moment when main loads it, at
least three; the line may come after more reports, at most one more for each signal from outside. -/
theorem safe_handler_counts {tr : List (Cause Sig × Process SafetyPc SafeHandlerPc SafetyMem Sig)}
    {p : Process SafetyPc SafeHandlerPc SafetyMem Sig}
    (h : Trace (signalSystem (safety stack) .install ⟨0, []⟩) tr p) :
    (p.frames = [] → ∃ c : ℕ, p.mem.count = c ∧ Reports c (wrote p.mem.out))
      ∧ ∀ before v, before ++ [.finalCount v] <+: p.mem.out →
          ∃ s c c', (Cause.main, s) ∈ tr ∧ s.pc = .final ∧ s.mem.count = v
            ∧ Reports c (wrote s.mem.out) ∧ v = (c : ℕ) ∧ 3 ≤ c
            ∧ Reports c' (wrote before) ∧ c ≤ c' ∧ c' ≤ 3 + arrivals .SIGUSR1 tr := by
  obtain ⟨hfinal, hbetween⟩ := reports_of_trace h
  refine ⟨hbetween, fun before v hprefix => ?_⟩
  obtain ⟨c, c', hv, hlow, hcc', hhigh, hreports'⟩ := hfinal before v hprefix
  obtain ⟨s, hs, hpc, hnone, hcount⟩ :=
    load_of_held (v := v) h (Or.inr (List.IsPrefix.subset hprefix (by simp)))
  obtain ⟨tr', _, hrun⟩ := h.of_mem hs
  obtain ⟨c₀, hcount₀, hreports⟩ := (reports_of_trace hrun).2 hnone
  obtain rfl : c₀ = c := by
    have hsame : (c₀ : ℤ) = c := by rw [← hcount₀, ← hv]; exact hcount
    exact_mod_cast hsame
  exact ⟨s, c₀, c', hs, hpc, hcount, hreports, hv, hlow, hreports', hcc', hhigh⟩

/-! ## A late signal -/

/-- What one run of the handler writes. -/
def reportOf (number : List UInt8) : List SafetyOut :=
  [.wrote countText, .wrote number, .wrote [10]]

/-- Main, with the handler installed and nothing blocked. -/
def installedAt (pc : SafetyPc) (count : ℤ) (out : List SafetyOut) (pending : Bool) :
    Process SafetyPc SafeHandlerPc SafetyMem Sig where
  pc := pc
  mem := ⟨count, out⟩
  frames := []
  blocked _ := false
  pending := Function.update (fun _ => false) .SIGUSR1 pending
  disp := caught .SIGUSR1 .handler
  killed := false

lemma quiet_of_none {p : Process SafetyPc SafeHandlerPc SafetyMem Sig}
    (h : p.pending = Function.update (fun _ => false) .SIGUSR1 false) : p.Quiet :=
  Process.quiet_of_none (by simp [h])

section

variable {tr : List (Cause Sig × Process SafetyPc SafeHandlerPc SafetyMem Sig)}
  {pc next : SafetyPc} {count : ℤ} {out : List SafetyOut} {bytes : List UInt8}

/-- An access of main. -/
lemma trace_access {count' : ℤ} {out' : List SafetyOut}
    (h : Trace (signalSystem (safety stack) .install ⟨0, []⟩) tr (installedAt pc count out false))
    (hmain : sectionSafety pc ⟨count, out⟩ (fun _ => false) = some (.access ⟨count', out'⟩ next)) :
    Trace (signalSystem (safety stack) .install ⟨0, []⟩)
      (tr ++ [(.main, installedAt pc count out false)]) (installedAt next count' out' false) := by
  have h₁ := h.signal (SignalStep.runs rfl (quiet_of_none rfl) rfl hmain)
  exact h₁

/-- A whole run of the handler. -/
lemma trace_report
    (h : Trace (signalSystem (safety stack) .install ⟨0, []⟩) tr (installedAt pc count out true))
    (hmax : count < INT_MAX) (hwrite : writeInt stack (count + 1) = .ok bytes) :
    ∃ tr', arrivals .SIGUSR1 tr' = arrivals .SIGUSR1 tr
      ∧ Trace (signalSystem (safety stack) .install ⟨0, []⟩) tr'
          (installedAt pc (count + 1) (out ++ reportOf bytes) false) := by
  have hpending : Function.update (installedAt pc count out true).pending .SIGUSR1 false
      = Function.update (fun _ => false) .SIGUSR1 false := by
    simp [installedAt]
  have hstore : safeHandler stack (.store count) ⟨count, out⟩
      = .ok (⟨count + 1, out⟩, some .text) := by
    simp [safeHandler, intSucc_eq hmax, pure, Except.pure, bind, Except.bind]
  have hnumber : safeHandler stack .number ⟨count + 1, out ++ [.wrote countText]⟩
      = .ok (⟨count + 1, out ++ [.wrote countText] ++ [.wrote bytes]⟩, some .newline) := by
    simp [safeHandler, hwrite, SafetyMem.write, pure, Except.pure, bind, Except.bind]
  have hout : out ++ reportOf bytes
      = out ++ [.wrote countText] ++ [.wrote bytes] ++ [.wrote [10]] := by
    simp [reportOf]
  have h₁ := h.signal (SignalStep.catches (s := .SIGUSR1) rfl (by simp [installedAt]) rfl
    (by simp [installedAt, caught]))
  rw [hpending] at h₁
  have h₂ := h₁.signal (SignalStep.handles rfl (quiet_of_none rfl) rfl rfl)
  have h₃ := h₂.signal (SignalStep.handles rfl (quiet_of_none rfl) rfl hstore)
  have h₄ := h₃.signal (SignalStep.handles rfl (quiet_of_none rfl) rfl rfl)
  have h₅ := h₄.signal (SignalStep.handles rfl (quiet_of_none rfl) rfl hnumber)
  have h₆ := h₅.signal (SignalStep.returns rfl (quiet_of_none rfl) rfl rfl)
  rw [hout]
  exact ⟨_, by simp [arrivals], h₆⟩

/-- A call of `raise`. -/
lemma trace_raise
    (h : Trace (signalSystem (safety stack) .install ⟨0, []⟩) tr (installedAt pc count out false))
    (hraise : sectionSafety pc ⟨count, out⟩ (fun _ => false) = some (.raise .SIGUSR1 next))
    (hmax : count < INT_MAX) (hwrite : writeInt stack (count + 1) = .ok bytes) :
    ∃ tr', arrivals .SIGUSR1 tr' = arrivals .SIGUSR1 tr
      ∧ Trace (signalSystem (safety stack) .install ⟨0, []⟩) tr'
          (installedAt next (count + 1) (out ++ reportOf bytes) false) := by
  have hraised : (installedAt pc count out false).perform (.raise .SIGUSR1 next)
      = installedAt next count out true := by
    simp [Process.perform, installedAt]
  have h₁ := h.signal (SignalStep.runs rfl (quiet_of_none rfl) rfl hraise)
  rw [hraised] at h₁
  obtain ⟨tr', harr, h₂⟩ := trace_report h₁ hmax hwrite
  exact ⟨tr', by simpa [arrivals] using harr, h₂⟩

/-- A signal from outside. -/
lemma trace_arrive
    (h : Trace (signalSystem (safety stack) .install ⟨0, []⟩) tr (installedAt pc count out false))
    (hmax : count < INT_MAX) (hwrite : writeInt stack (count + 1) = .ok bytes) :
    ∃ tr', arrivals .SIGUSR1 tr' = arrivals .SIGUSR1 tr + 1
      ∧ Trace (signalSystem (safety stack) .install ⟨0, []⟩) tr'
          (installedAt pc (count + 1) (out ++ reportOf bytes) false) := by
  have hpending : Function.update (installedAt pc count out false).pending .SIGUSR1 true
      = Function.update (fun _ => false) .SIGUSR1 true := by
    simp [installedAt]
  have h₁ := h.signal (SignalStep.arrive .SIGUSR1 rfl)
  rw [hpending] at h₁
  obtain ⟨tr', harr, h₂⟩ := trace_report h₁ hmax hwrite
  exact ⟨tr', by simpa [arrivals] using harr, h₂⟩

end

/-- What is written before main's line. -/
def lateLines : List SafetyOut :=
  [.firing] ++ reportOf [49] ++ reportOf [50] ++ reportOf [51] ++ reportOf [52]

/-- A signal comes between main's load of the count and the line: main prints 3 after four reports.
-/
theorem safe_handler_counts_late :
    ∃ (tr : List (Cause Sig × Process SafetyPc SafeHandlerPc SafetyMem Sig))
      (p : Process SafetyPc SafeHandlerPc SafetyMem Sig),
      Trace (signalSystem (safety fun _ => 0) .install ⟨0, []⟩) tr p
        ∧ arrivals .SIGUSR1 tr = 1 ∧ p.mem = ⟨4, lateLines ++ [.finalCount 3]⟩
        ∧ (∃ c : ℕ, p.mem.count = c ∧ Reports c (wrote p.mem.out))
        ∧ ∃ s c c', (Cause.main, s) ∈ tr ∧ s.pc = .final ∧ s.mem.count = 3
            ∧ Reports c (wrote s.mem.out) ∧ (3 : ℤ) = (c : ℕ) ∧ 3 ≤ c
            ∧ Reports c' (wrote lateLines) ∧ c ≤ c' ∧ c' ≤ 3 + arrivals .SIGUSR1 tr := by
  have hwrite : ∀ n ∈ [1, 2, 3, 4], writeInt (fun _ => 0) (n : ℕ) = .ok [48 + UInt8.ofNat n] := by
    decide
  have hinstalled : (Process.fresh .install ⟨0, []⟩ :
      Process SafetyPc SafeHandlerPc SafetyMem Sig).perform (.sigaction .SIGUSR1 .handler .firing)
        = installedAt .firing 0 [] false := by
    simp [Process.perform, Process.fresh, installedAt, caught]
  have h₀ : Trace (signalSystem (safety fun _ => 0) .install ⟨0, []⟩) []
      (.fresh .install ⟨0, []⟩) := .init rfl
  have h₁ := h₀.signal (SignalStep.runs rfl (quiet_of_none (by simp [Process.fresh])) rfl rfl)
  rw [hinstalled] at h₁
  have h₂ : Trace _ _ (installedAt .first 0 [.firing] false) := trace_access h₁ rfl
  obtain ⟨tr₃, harr₃, h₃⟩ := trace_raise h₂ rfl (by decide) (hwrite 1 (by simp))
  obtain ⟨tr₄, harr₄, h₄⟩ := trace_raise h₃ rfl (by decide) (hwrite 2 (by simp))
  obtain ⟨tr₅, harr₅, h₅⟩ := trace_raise h₄ rfl (by decide) (hwrite 3 (by simp))
  have h₆ : Trace _ _ (installedAt (.print 3) 3
      ([.firing] ++ reportOf [49] ++ reportOf [50] ++ reportOf [51]) false) := trace_access h₅ rfl
  obtain ⟨tr₇, harr₇, h₇⟩ := trace_arrive h₆ (by decide) (hwrite 4 (by simp))
  have h₈ : Trace _ _ (installedAt .restore 4 (lateLines ++ [.finalCount 3]) false) :=
    trace_access h₇ rfl
  refine ⟨_, _, h₈, ?_, rfl, (safe_handler_counts h₈).1 rfl,
    (safe_handler_counts h₈).2 lateLines 3 (List.prefix_refl _)⟩
  simp [arrivals, harr₇, harr₅, harr₄, harr₃]

end CExercises.Signals
