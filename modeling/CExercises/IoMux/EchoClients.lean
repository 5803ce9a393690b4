import CExercises.IoMux.EchoClientsDef
import CExercises.IoMux.EchoServer
import Mathlib.Algebra.BigOperators.Ring.Finset
import Mathlib.Algebra.Order.BigOperators.Group.Finset
import Mathlib.Algebra.Order.Ring.Int
import Mathlib.Data.List.TakeWhile

/-!
# Every client gets its own message back

The server's side of a client is the machine of `EchoServer.lean`.  Beside a client process that
sends one short message this machine has few places to be in, and `Phase` lists them: a process, the
record of its connection and the stage of the server.  A step of the server moves along the list,
and so does a step of the process.

The counters decide when the server leaves.  `active` and `totalSeen` are sums over the clients, and
the two together say "all have been accepted and closed" exactly when that is the case, so that no
client is left behind and none finds the server gone.

A run ends because of a measure.  Most steps lower what a client still has ahead of it; the others
belong to the bookkeeping of a batch, and every event of a batch is paid for by the step it stands
for.
-/

namespace CExercises.IoMux.Echo

/-! ## One client and the server -/

/-- A process whose message has been written back, and whether it has closed. -/
inductive Served (m : List UInt8) : Proc → Bool → Prop
  | reading : Served m ⟨.reading, none⟩ false
  | printing : Served m ⟨.printing m, none⟩ false
  | closing : Served m ⟨.closing, some m⟩ false
  | exited : Served m ⟨.exited, some m⟩ true

/-- Where a process, its connection and the server can stand together. -/
inductive Phase (m : List UInt8) : Proc → Client → Stage → Prop
  | absent : Phase m ⟨.connecting, none⟩ ⟨.absent, [], false, false, [], []⟩ .idle
  | connected {conn : Conn} (hconn : conn = .pending ∨ conn = .registered) :
      Phase m ⟨.writing, none⟩ ⟨conn, [], false, false, [], []⟩ .idle
  | sent {conn : Conn} (hconn : conn = .pending ∨ conn = .registered) :
      Phase m ⟨.reading, none⟩ ⟨conn, m, false, false, m, []⟩ .idle
  | reported {events : Mask} (hmask : events.hungUp = false) :
      Phase m ⟨.reading, none⟩ ⟨.registered, m, false, false, m, []⟩ (.reported events)
  | echoing {events : Mask} (hmask : events.hungUp = false) :
      Phase m ⟨.reading, none⟩ ⟨.registered, [], false, false, m, []⟩ (.writing events m)
  | echoed {pr : Proc} {half : Bool} {st : Stage} (hproc : Served m pr half)
      (hst : st = .idle ∨ ∃ events, st = .deciding events m.length ∧ events.hungUp = false) :
      Phase m pr ⟨.registered, [], half, false, m, m⟩ st
  | left {events : Mask} :
      Phase m ⟨.exited, some m⟩ ⟨.registered, [], true, false, m, m⟩ (.reported events)
  | leaving {events : Mask} :
      Phase m ⟨.exited, some m⟩ ⟨.registered, [], true, false, m, m⟩ (.deciding events 0)
  | closed : Phase m ⟨.exited, some m⟩ ⟨.closed, [], true, false, m, m⟩ .idle

section

variable {m : List UInt8} {pr : Proc} {cl cl' : Client} {st st' : Stage} {reads : Bool}

/-- **A step of the server.**  It neither connects, nor sends, nor half-closes, nor fails. -/
lemma Phase.server (h : Phase m pr cl st) (hstep : Local reads cl st cl' st')
    (hsent : cl'.sent = cl.sent) (hhalf : cl'.halfClosed = cl.halfClosed)
    (hfailed : cl'.failed = cl.failed) (hpend : cl'.conn = .pending → cl.conn = .pending)
    (hne : m ≠ []) (hlen : m.length ≤ SIZEOF_BUF - 1) : Phase m pr cl' st' := by
  cases hstep with
  | stay => exact h
  | connect hconn =>
      rw [hconn] at hpend
      cases hpend rfl
  | send bytes hopen =>
      obtain rfl : bytes = [] := by simpa using hsent
      simpa using h
  | halfClose =>
      have hsame : { cl with halfClosed := true } = cl := by
        cases cl
        cases hhalf
        rfl
      rw [hsame]
      exact h
  | accept hconn =>
      cases h with
      | connected _ => exact .connected (Or.inr rfl)
      | sent _ => exact .sent (Or.inr rfl)
      | _ => cases hconn
  | report hconn hready =>
      cases h with
      | absent => cases hconn
      | connected _ => simp at hready
      | sent _ =>
          cases hconn
          exact .reported rfl
      | echoed hproc hst =>
          obtain rfl : _ = true := by simpa using hready
          cases hproc
          exact .left
      | closed => cases hconn
  | drop =>
      cases h with
      | reported hmask => exact .sent (Or.inr rfl)
      | left => exact .echoed .exited (Or.inl rfl)
      | echoed hproc hst => simp at hst
  | read hdata =>
      cases h with
      | reported hmask =>
          rw [List.take_of_length_le hlen, List.drop_of_length_le hlen]
          exact .echoing hmask
      | left => exact absurd rfl hdata
      | echoed hproc hst => exact absurd rfl hdata
  | readEof hdata hclosed =>
      cases h with
      | reported hmask => exact absurd hdata hne
      | left => exact .leaving
      | echoed hproc hst => simp at hst
  | readAgain hdata hopen =>
      cases h with
      | reported hmask => exact absurd hdata hne
      | left => cases hopen
      | echoed hproc hst => simp at hst
  | readFails => cases h <;> cases hfailed
  | write =>
      cases h with
      | echoing hmask => exact .echoed .reading (Or.inr ⟨_, rfl, hmask⟩)
      | echoed hproc hst => simp at hst
  | keep hdis =>
      cases h with
      | echoed hproc hst => exact .echoed hproc (Or.inl rfl)
      | leaving => simp [disconnect] at hdis
  | close hdis =>
      cases h with
      | echoed hproc hst =>
          -- something was read and no hang-up reported, so the server keeps the client
          simp only [reduceCtorEq, Stage.deciding.injEq, false_or] at hst
          obtain ⟨_, ⟨rfl, rfl⟩, hmask⟩ := hst
          simp [disconnect, hmask, hne] at hdis
      | leaving => exact .closed

/-! ### Steps of the process -/

lemma Phase.connect (h : Phase m pr cl st) (hpc : pr.pc = .connecting) :
    cl.conn = .absent
      ∧ Phase m { pr with pc := .writing } { cl with conn := .pending } st := by
  cases h with
  | absent => exact ⟨rfl, .connected (Or.inl rfl)⟩
  | echoed hproc _ => cases hproc <;> cases hpc
  | _ => cases hpc

lemma Phase.write (h : Phase m pr cl st) (hpc : pr.pc = .writing) :
    Phase m { pr with pc := .reading }
      { cl with buffer := cl.buffer ++ m, sent := cl.sent ++ m } st := by
  cases h with
  | connected hconn => exact .sent hconn
  | echoed hproc _ => cases hproc <;> cases hpc
  | _ => cases hpc

lemma Phase.read (h : Phase m pr cl st) (hpc : pr.pc = .reading) (hdata : cl.written ≠ [])
    (hlen : m.length ≤ SIZEOF_REPLY - 1) :
    Phase m { pr with pc := .printing (cl.written.take (SIZEOF_REPLY - 1)) } cl st := by
  cases h with
  | sent _ => exact absurd rfl hdata
  | reported _ => exact absurd rfl hdata
  | echoing _ => exact absurd rfl hdata
  | echoed hproc hst =>
      cases hproc with
      | reading =>
          rw [List.take_of_length_le hlen]
          exact .echoed .printing hst
      | _ => cases hpc
  | _ => cases hpc

/-- Nobody finds the connection closed before the reply. -/
lemma Phase.not_eof (h : Phase m pr cl st) (hpc : pr.pc = .reading) : cl.conn ≠ .closed := by
  cases h with
  | sent hconn => rcases hconn with rfl | rfl <;> simp
  | closed => cases hpc
  | connected _ => cases hpc
  | absent => cases hpc
  | _ => simp

lemma Phase.print {reply : List UInt8} (h : Phase m pr cl st) (hpc : pr.pc = .printing reply)
    (hnul : ∀ b ∈ m, b ≠ 0) :
    Phase m ⟨.closing, some (reply.takeWhile (· ≠ 0))⟩ cl st := by
  cases h with
  | echoed hproc hst =>
      cases hproc with
      | printing =>
          cases hpc
          rw [List.takeWhile_eq_self_iff.mpr (by simpa using hnul)]
          exact .echoed .closing hst
      | _ => cases hpc
  | _ => cases hpc

lemma Phase.close (h : Phase m pr cl st) (hpc : pr.pc = .closing) :
    Phase m { pr with pc := .exited } { cl with halfClosed := true } st := by
  cases h with
  | echoed hproc hst =>
      cases hproc with
      | closing => exact .echoed .exited hst
      | _ => cases hpc
  | _ => cases hpc

/-- What a client shows is its message. -/
lemma Phase.shown {reply : List UInt8} (h : Phase m pr cl st) (hshown : pr.shown = some reply) :
    reply = m := by
  cases h with
  | echoed hproc _ => cases hproc <;> cases hshown; rfl; rfl
  | left => cases hshown; rfl
  | leaving => cases hshown; rfl
  | closed => cases hshown; rfl
  | _ => cases hshown

/-- The server decides only about a client it has accepted. -/
lemma Phase.registered {events : Mask} {nr : ℤ} (h : Phase m pr cl (.deciding events nr)) :
    cl.conn = .registered := by
  cases h <;> rfl

lemma Phase.of_closed (h : Phase m pr cl st) (hconn : cl.conn = .closed) :
    pr = ⟨.exited, some m⟩ := by
  cases h with
  | closed => rfl
  | connected hpend => rcases hpend with rfl | rfl <;> cases hconn
  | sent hpend => rcases hpend with rfl | rfl <;> cases hconn
  | _ => cases hconn

end

/-! ## The counters -/

/-- What a connection adds to `active`. -/
def Conn.active : Conn → ℤ
  | .registered => 1
  | _ => 0

/-- What a connection adds to `total_seen`. -/
def Conn.seen : Conn → ℤ
  | .registered => 1
  | .closed => 1
  | _ => 0

section

variable {C : Type} [Fintype C]

/-- `active == 0 && total_seen == NUM_CLIENTS` says that all clients have been closed. -/
lemma all_closed_iff (conn : C → Conn) :
    (∑ c, (conn c).active = 0 ∧ ∑ c, (conn c).seen = Fintype.card C) ↔ ∀ c, conn c = .closed := by
  constructor
  · rintro ⟨hactive, hseen⟩
    have hone : ∀ c ∈ Finset.univ, (conn c).seen ≤ (conn c).active + 1 := by
      intro c _
      cases conn c <;> simp [Conn.seen, Conn.active]
    have hsum : ∑ c : C, (conn c).seen = ∑ c : C, ((conn c).active + 1) := by
      rw [Finset.sum_add_distrib, hactive, hseen]
      simp
    intro c
    have hc := (Finset.sum_eq_sum_iff_of_le hone).mp hsum c (Finset.mem_univ c)
    have hzero : (conn c).active = 0 := by
      refine (Finset.sum_eq_zero_iff_of_nonneg ?_).mp hactive c (Finset.mem_univ c)
      intro d _
      cases conn d <;> simp [Conn.active]
    cases hconn : conn c <;> simp_all [Conn.seen, Conn.active]
  · intro h
    simp [h, Conn.active, Conn.seen]

/-! ## The invariant -/

variable [DecidableEq C] {msg : C → CStr} {w w' : World C} {l : Label C}

/-- What every interleaving preserves. -/
structure WorldInv (msg : C → CStr) (w : World C) : Prop where
  nodup : w.echo.pc.fds.Nodup
  phase : ∀ c, Phase (msg c).bytes (w.proc c) (w.echo.client c) (w.echo.pc.stage c)
  active : w.echo.active = ∑ c, (w.echo.client c).conn.active
  seen : w.echo.totalSeen = ∑ c, (w.echo.client c).conn.seen
  done : w.echo.pc = .done ↔ ∀ c, (w.echo.client c).conn = .closed

/-- What the messages of `run_clients` are: not empty, and shorter than the buffers. -/
def Short (msg : C → CStr) : Prop := ∀ c, 0 < (msg c).strlen ∧ (msg c).strlen < SIZEOF_REPLY

omit [Fintype C] in
/-- The server neither connects, nor sends, nor half-closes. -/
lemma server_frame {n : ℤ} {s s' : State C} (hstep : Step n .server s s') (c : C) :
    (s'.client c).sent = (s.client c).sent ∧ (s'.client c).halfClosed = (s.client c).halfClosed
      ∧ (s'.client c).failed = (s.client c).failed
      ∧ ((s'.client c).conn = .pending → (s.client c).conn = .pending) := by
  have hone : ∀ (c' : C) (cl : Client), cl.sent = (s.client c').sent →
      cl.halfClosed = (s.client c').halfClosed → cl.failed = (s.client c').failed →
      (cl.conn = .pending → (s.client c').conn = .pending) →
      ((s.set c' cl).client c).sent = (s.client c).sent
        ∧ ((s.set c' cl).client c).halfClosed = (s.client c).halfClosed
        ∧ ((s.set c' cl).client c).failed = (s.client c).failed
        ∧ (((s.set c' cl).client c).conn = .pending → (s.client c).conn = .pending) := by
    intro c' cl hsent hhalf hfailed hpend
    by_cases hc : c = c'
    · subst hc
      rw [State.set_client_self]
      exact ⟨hsent, hhalf, hfailed, hpend⟩
    · rw [State.set_client_of_ne hc]
      exact ⟨rfl, rfl, rfl, id⟩
  cases hstep with
  | accept hpc hconn => exact hone _ _ rfl rfl rfl (by simp)
  | read hpc hdata => exact hone _ _ rfl rfl rfl id
  | write hpc => exact hone _ _ rfl rfl rfl id
  | close hpc hdis => exact hone _ _ rfl rfl rfl (by simp)
  | _ => exact ⟨rfl, rfl, rfl, id⟩

/-- The sums after one client's record has changed. -/
lemma sum_set (f : Conn → ℤ) (s : State C) (c : C) (cl : Client) :
    ∑ d, f ((s.set c cl).client d).conn + f (s.client c).conn
      = ∑ d, f (s.client d).conn + f cl.conn :=
  sum_moved (fun cl => f cl.conn) s.client c cl

/-- **A step of the server keeps the counters**, and it leaves exactly when nobody is left. -/
lemma WorldInv.server_counts (h : WorldInv msg w) {s : State C}
    (hstep : Step (Fintype.card C) .server w.echo s)
    (hstay : w.echo.pc = .waiting → s.pc ≠ .done) :
    s.active = ∑ c, (s.client c).conn.active ∧ s.totalSeen = ∑ c, (s.client c).conn.seen
      ∧ (s.pc = .done ↔ ∀ c, (s.client c).conn = .closed) := by
  have hkeep : ∀ s' : State C, w.echo.pc ≠ .done → s'.pc ≠ .done →
      (∀ c, (s'.client c).conn = (w.echo.client c).conn) → s'.active = w.echo.active →
      s'.totalSeen = w.echo.totalSeen →
      s'.active = ∑ c, (s'.client c).conn.active ∧ s'.totalSeen = ∑ c, (s'.client c).conn.seen
        ∧ (s'.pc = .done ↔ ∀ c, (s'.client c).conn = .closed) := by
    intro s' hbefore hafter hconn hactive hseen
    simp only [hconn, hactive, hseen]
    exact ⟨h.active, h.seen, iff_of_false hafter fun hall => hbefore (h.done.mpr hall)⟩
  have hset : ∀ (c c' : C) (cl : Client), cl.conn = (w.echo.client c').conn →
      ((w.echo.set c' cl).client c).conn = (w.echo.client c).conn := by
    intro c c' cl hcl
    by_cases hc : c = c'
    · subst hc
      rw [State.set_client_self, hcl]
    · rw [State.set_client_of_ne hc]
  cases hstep with
  | leave hpc => exact absurd rfl (hstay hpc)
  | wait fds hpc _ _ _ _ => exact hkeep _ (by simp [hpc]) (by simp) (fun _ => rfl) rfl rfl
  | endBatch hpc => exact hkeep _ (by simp [hpc]) (by simp) (fun _ => rfl) rfl rfl
  | allAccepted hpc _ => exact hkeep _ (by simp [hpc]) (by simp) (fun _ => rfl) rfl rfl
  | read hpc _ => exact hkeep _ (by simp [hpc]) (by simp) (fun c => hset c _ _ rfl) rfl rfl
  | readEof hpc _ _ => exact hkeep _ (by simp [hpc]) (by simp) (fun _ => rfl) rfl rfl
  | readAgain hpc _ _ => exact hkeep _ (by simp [hpc]) (by simp) (fun _ => rfl) rfl rfl
  | write hpc => exact hkeep _ (by simp [hpc]) (by simp) (fun c => hset c _ _ rfl) rfl rfl
  | keep hpc _ => exact hkeep _ (by simp [hpc]) (by simp) (fun _ => rfl) rfl rfl
  | @accept _ events rest c hpc hconn =>
      have hactive := sum_set Conn.active w.echo c { w.echo.client c with conn := .registered }
      have hseen := sum_set Conn.seen w.echo c { w.echo.client c with conn := .registered }
      rw [hconn, ← h.active] at hactive
      rw [hconn, ← h.seen] at hseen
      refine ⟨?_, ?_, iff_of_false (by simp [hpc]) fun hall => ?_⟩
      · simpa [Conn.active] using hactive.symm
      · simpa [Conn.seen] using hseen.symm
      · have hc := hall c
        simp at hc
  | @close _ c events nr rest hpc hdis =>
      have hreg : (w.echo.client c).conn = .registered := by
        have hphase := h.phase c
        simp only [hpc, Pc.stage, if_true] at hphase
        exact hphase.registered
      have hactive := sum_set Conn.active w.echo c { w.echo.client c with conn := .closed }
      have hseen := sum_set Conn.seen w.echo c { w.echo.client c with conn := .closed }
      rw [hreg, ← h.active] at hactive
      rw [hreg, ← h.seen] at hseen
      have hafter : w.echo.active - 1
          = ∑ d, ((w.echo.set c { w.echo.client c with conn := .closed }).client d).conn.active := by
        simp only [Conn.active] at hactive ⊢
        omega
      have hsame : w.echo.totalSeen
          = ∑ d, ((w.echo.set c { w.echo.client c with conn := .closed }).client d).conn.seen := by
        simp only [Conn.seen] at hseen ⊢
        omega
      refine ⟨hafter, hsame, ?_⟩
      rw [← all_closed_iff fun d =>
        ((w.echo.set c { w.echo.client c with conn := .closed }).client d).conn, ← hafter, ← hsame]
      dsimp only
      split_ifs with hlast
      · simp [hlast]
      · simp [hlast]

omit [Fintype C] in
/-- Changing a record without its connection changes no connection. -/
lemma conn_set {s : State C} {c : C} {cl : Client} (hconn : cl.conn = (s.client c).conn) (d : C) :
    ((s.set c cl).client d).conn = (s.client d).conn := by
  by_cases hd : d = c
  · subst hd
    rw [State.set_client_self, hconn]
  · rw [State.set_client_of_ne hd]

/-- One client process moves, in step with its record. -/
lemma WorldInv.move (h : WorldInv msg w) {c : C} {cl : Client} {pr : Proc}
    (hphase : Phase (msg c).bytes pr cl (w.echo.pc.stage c))
    (hactive : cl.conn.active = (w.echo.client c).conn.active)
    (hseen : cl.conn.seen = (w.echo.client c).conn.seen)
    (hdone : w.echo.pc = .done ↔ ∀ d, ((w.echo.set c cl).client d).conn = .closed) :
    WorldInv msg (w.set c cl pr) where
  nodup := h.nodup
  phase := by
    intro d
    show Phase (msg d).bytes (Function.update w.proc c pr d) ((w.echo.set c cl).client d)
      (w.echo.pc.stage d)
    by_cases hd : d = c
    · subst hd
      rw [Function.update_self, State.set_client_self]
      exact hphase
    · rw [Function.update_of_ne hd, State.set_client_of_ne hd]
      exact h.phase d
  active := by
    have hsum := sum_set Conn.active w.echo c cl
    rw [hactive, add_right_cancel_iff, ← h.active] at hsum
    exact hsum.symm
  seen := by
    have hsum := sum_set Conn.seen w.echo c cl
    rw [hseen, add_right_cancel_iff, ← h.seen] at hsum
    exact hsum.symm
  done := hdone

/-- A process moves and its connection stays. -/
lemma WorldInv.move_same (h : WorldInv msg w) {c : C} {cl : Client} {pr : Proc}
    (hphase : Phase (msg c).bytes pr cl (w.echo.pc.stage c))
    (hconn : cl.conn = (w.echo.client c).conn) : WorldInv msg (w.set c cl pr) := by
  refine h.move hphase (by rw [hconn]) (by rw [hconn]) ?_
  simp only [conn_set hconn]
  exact h.done

/-- **Step.** -/
theorem WorldInv.step (hmsg : Short msg) (h : WorldInv msg w) (hstep : WorldStep msg l w w') :
    WorldInv msg w' := by
  cases hstep with
  | @connect _ c hpc hlisten =>
      obtain ⟨habsent, hphase⟩ := (h.phase c).connect hpc
      refine h.move hphase (by simp [habsent, Conn.active]) (by simp [habsent, Conn.seen]) ?_
      refine iff_of_false hlisten fun hall => ?_
      have hc := hall c
      simp at hc
  | @refused _ c hpc hgone =>
      -- a client that has not connected has not been closed, so the server is not gone
      obtain ⟨habsent, _⟩ := (h.phase c).connect hpc
      have hclosed := h.done.mp hgone c
      rw [habsent] at hclosed
      cases hclosed
  | @write _ c hpc => exact h.move_same ((h.phase c).write hpc) rfl
  | @read _ c hpc hdata =>
      refine h.move_same ((h.phase c).read hpc hdata ?_) rfl
      have hlen := (hmsg c).2
      exact Nat.le_sub_one_of_lt hlen
  | @readEof _ c hpc hdata hconn => exact absurd hconn ((h.phase c).not_eof hpc)
  | @print _ c reply hpc => exact h.move_same ((h.phase c).print hpc (msg c).nulFree) rfl
  | @close _ c hpc => exact h.move_same ((h.phase c).close hpc) rfl
  | @server _ s hstep hstay =>
      obtain ⟨hactive, hseen, hdone⟩ := h.server_counts hstep hstay
      refine ⟨fds_nodup_step h.nodup hstep, fun c => ?_, hactive, hseen, hdone⟩
      obtain ⟨reads, hlocal, _⟩ := local_of_step h.nodup hstep c
      obtain ⟨hsent, hhalf, hfailed, hpend⟩ := server_frame hstep c
      refine (h.phase c).server hlocal hsent hhalf hfailed hpend ?_ ?_
      · exact List.ne_nil_of_length_pos (hmsg c).1
      · have hlen := (hmsg c).2
        simp only [CStr.strlen, SIZEOF_REPLY, SIZEOF_BUF] at hlen ⊢
        omega

/-- **Run.** -/
theorem worldInv_of_reachable [Nonempty C] (hmsg : Short msg) (h : Reachable (echoWorld msg) w) :
    WorldInv msg w := by
  refine h.invariant ?_ fun l w w' hinv hstep => hinv.step hmsg hstep
  rintro w rfl
  refine ⟨List.nodup_nil, fun c => .absent, ?_, ?_, iff_of_false (by simp [start]) fun hall => ?_⟩
  · simp [start, Conn.active]
  · simp [start, Conn.seen]
  · have hc := hall (Classical.arbitrary C)
    simp [start] at hc

/-! ## Runs end -/

/-- What a process still has ahead of it; a message that is not written yet counts with its
bytes. -/
def ProcPc.rank (len : ℕ) : ProcPc → ℕ
  | .connecting => len + 5
  | .writing => len + 4
  | .reading => 3
  | .printing _ => 2
  | .closing => 1
  | .exited => 0

/-- What the server still has to do with a connection. -/
def Conn.rank : Conn → ℕ
  | .absent => 2
  | .pending => 2
  | .registered => 1
  | .closed => 0

/-- A client waits to be accepted. -/
def SomePending (s : State C) : Prop := ∃ c, (s.client c).conn = .pending

open Classical in
/-- Where the server stands between two steps that a client has ahead of it. -/
noncomputable def serverRank (s : State C) : ℕ :=
  match s.pc with
  | .waiting => 2
  | .handling [] => 3
  | .handling (⟨.lfd, _⟩ :: _) => if SomePending s then 1 else 4
  | .handling (⟨.cfd _, _⟩ :: _) => 1
  | .writing .. => 6
  | .deciding _ events nr _ => if disconnect nr events then 0 else 5
  | .done => 0

/-- What one client has ahead of it. -/
def clientRank (len : ℕ) (pr : Proc) (cl : Client) : ℕ :=
  pr.pc.rank len + cl.conn.rank + cl.buffer.length

noncomputable def World.rank (msg : C → CStr) (w : World C) : ℕ :=
  7 * (∑ c, clientRank (msg c).strlen (w.proc c) (w.echo.client c)) + serverRank w.echo

omit [Fintype C] [DecidableEq C] in
lemma serverRank_le (s : State C) : serverRank s ≤ 6 := by
  unfold serverRank
  split
  all_goals first | omega | (split_ifs <;> omega)

omit [Fintype C] [DecidableEq C] in
lemma serverRank_handling_le {evs : List (Event C)} (s : State C) (hpc : s.pc = .handling evs) :
    serverRank s ≤ 4 := by
  unfold serverRank
  rw [hpc]
  split
  case h_3 => split_ifs <;> omega
  all_goals first | omega | simp_all

omit [Fintype C] [DecidableEq C] in
/-- A client that moves leaves the server where it was, or gives it something to accept. -/
lemma serverRank_le_of_pc {s s' : State C} (hpc : s'.pc = s.pc)
    (hpend : SomePending s → SomePending s') : serverRank s' ≤ serverRank s := by
  unfold serverRank
  rw [hpc]
  split
  case h_3 =>
    split_ifs with h' h
    · omega
    · omega
    · exact absurd (hpend ‹_›) h'
    · omega
  all_goals omega

/-- A client process moves on. -/
lemma rank_move {c : C} {cl : Client} {pr : Proc}
    (hrank : clientRank (msg c).strlen pr cl
      < clientRank (msg c).strlen (w.proc c) (w.echo.client c))
    (hpend : SomePending w.echo → SomePending (w.echo.set c cl)) :
    (w.set c cl pr).rank msg < w.rank msg := by
  have hsum := sum_of_ne
    (f := fun d => clientRank (msg d).strlen ((w.set c cl pr).proc d)
      ((w.set c cl pr).echo.client d))
    (g := fun d => clientRank (msg d).strlen (w.proc d) (w.echo.client d)) c fun d hd => by
      show clientRank _ (Function.update w.proc c pr d) ((w.echo.set c cl).client d) = _
      rw [Function.update_of_ne hd, State.set_client_of_ne hd]
  have hself : clientRank (msg c).strlen ((w.set c cl pr).proc c) ((w.set c cl pr).echo.client c)
      = clientRank (msg c).strlen pr cl := by
    show clientRank _ (Function.update w.proc c pr c) ((w.echo.set c cl).client c) = _
    rw [Function.update_self, State.set_client_self]
  have hserver : serverRank (w.set c cl pr).echo ≤ serverRank w.echo :=
    serverRank_le_of_pc rfl hpend
  rw [hself] at hsum
  unfold World.rank
  omega

/-- The server does something that a client has ahead of it. -/
lemma rank_serve {s : State C} {c : C}
    (hrank : clientRank (msg c).strlen (w.proc c) (s.client c)
      < clientRank (msg c).strlen (w.proc c) (w.echo.client c))
    (hrest : ∀ d, d ≠ c → s.client d = w.echo.client d) :
    (World.mk s w.proc).rank msg < w.rank msg := by
  have hsum := sum_of_ne (f := fun d => clientRank (msg d).strlen (w.proc d) (s.client d))
    (g := fun d => clientRank (msg d).strlen (w.proc d) (w.echo.client d)) c fun d hd => by
      rw [hrest d hd]
  have hserver := serverRank_le s
  unfold World.rank
  dsimp only
  omega

omit [DecidableEq C] in
/-- The server does its bookkeeping. -/
lemma rank_keep {s : State C} (hserver : serverRank s < serverRank w.echo)
    (hsame : ∀ c, (s.client c).conn = (w.echo.client c).conn
      ∧ (s.client c).buffer = (w.echo.client c).buffer) :
    (World.mk s w.proc).rank msg < w.rank msg := by
  have hsum : ∑ c, clientRank (msg c).strlen (w.proc c) (s.client c)
      = ∑ c, clientRank (msg c).strlen (w.proc c) (w.echo.client c) := by
    refine Finset.sum_congr rfl fun c _ => ?_
    rw [clientRank, clientRank, (hsame c).1, (hsame c).2]
  unfold World.rank
  dsimp only
  rw [hsum]
  omega

omit [Fintype C] in
/-- A change that keeps the connection of a client keeps what is pending. -/
lemma somePending_set {s : State C} {c : C} {cl : Client} (hconn : cl.conn = (s.client c).conn)
    (h : SomePending s) : SomePending (s.set c cl) := by
  rcases h with ⟨d, hd⟩
  exact ⟨d, by rw [conn_set hconn, hd]⟩

/-- The server reads or closes: only the record of its client changes, and that gets smaller. -/
lemma rank_serve_set {s : State C} {c : C} {cl : Client}
    (hclient : s.client = (w.echo.set c cl).client)
    (hrank : clientRank (msg c).strlen (w.proc c) cl
      < clientRank (msg c).strlen (w.proc c) (w.echo.client c)) :
    (World.mk s w.proc).rank msg < w.rank msg := by
  refine rank_serve (c := c) ?_ fun d hd => ?_
  · rw [hclient, State.set_client_self]
    exact hrank
  · rw [hclient, State.set_client_of_ne hd]

/-- **Step.** -/
theorem WorldInv.rank_lt (h : WorldInv msg w) (hstep : WorldStep msg l w w') :
    w'.rank msg < w.rank msg := by
  cases hstep with
  | @connect _ c hpc hlisten =>
      obtain ⟨habsent, _⟩ := (h.phase c).connect hpc
      refine rank_move ?_ fun _ => ⟨c, by simp⟩
      simp [clientRank, hpc, habsent, ProcPc.rank, Conn.rank]
  | @refused _ c hpc hgone =>
      refine rank_move ?_ (somePending_set rfl)
      simp [clientRank, hpc, ProcPc.rank]
  | @write _ c hpc =>
      refine rank_move ?_ (somePending_set rfl)
      simp only [clientRank, hpc, ProcPc.rank, List.length_append, CStr.strlen]
      omega
  | @read _ c hpc hdata =>
      refine rank_move ?_ (somePending_set rfl)
      simp [clientRank, hpc, ProcPc.rank]
  | @readEof _ c hpc hdata hconn =>
      refine rank_move ?_ (somePending_set rfl)
      simp [clientRank, hpc, ProcPc.rank]
  | @print _ c reply hpc =>
      refine rank_move ?_ (somePending_set rfl)
      simp [clientRank, hpc, ProcPc.rank]
  | @close _ c hpc =>
      refine rank_move ?_ (somePending_set rfl)
      simp [clientRank, hpc, ProcPc.rank]
  | @server _ s hstep hstay =>
      cases hstep with
      | leave hpc => exact absurd rfl (hstay hpc)
      | wait fds hpc hpos hmax hnodup hready =>
          refine rank_keep ?_ fun _ => ⟨rfl, rfl⟩
          cases fds with
          | nil => cases hpos
          | cons fd rest =>
              cases fd with
              | lfd =>
                  have hpend : SomePending { w.echo with
                      pc := .handling ((.lfd :: rest).map (eventFor w.echo)) } :=
                    hready .lfd List.mem_cons_self
                  simp only [serverRank, hpc, List.map_cons, eventFor]
                  rw [if_pos hpend]
                  omega
              | cfd c => simp [serverRank, hpc, eventFor]
      | endBatch hpc => exact rank_keep (by simp [serverRank, hpc]) fun _ => ⟨rfl, rfl⟩
      | @accept _ events rest c hpc hconn =>
          refine rank_serve_set rfl ?_
          simp [clientRank, hconn, Conn.rank]
      | @allAccepted _ events rest hpc hnone =>
          refine rank_keep ?_ fun _ => ⟨rfl, rfl⟩
          have hbefore : ¬ SomePending w.echo := by
            rintro ⟨c, hc⟩
            exact hnone c hc
          have hnodup := h.nodup
          cases rest with
          | nil => simp [serverRank, hpc, hbefore]
          | cons ev rest =>
              rcases ev with ⟨_ | c, evs⟩
              · simp [hpc, Pc.fds] at hnodup
              · simp [serverRank, hpc, hbefore]
      | @read _ c events rest hpc hdata =>
          refine rank_serve_set rfl ?_
          have hlen := List.length_pos_of_ne_nil hdata
          simp only [clientRank, List.length_drop, SIZEOF_BUF]
          omega
      | readEof hpc hdata hhalf =>
          exact rank_keep (by simp [serverRank, hpc, disconnect]) fun _ => ⟨rfl, rfl⟩
      | readAgain hpc hdata hhalf =>
          exact rank_keep (by simp [serverRank, hpc, disconnect]) fun _ => ⟨rfl, rfl⟩
      | @write _ c events buf rest hpc =>
          refine rank_keep ?_ fun d => ?_
          · simp only [serverRank, hpc]
            split_ifs <;> omega
          · by_cases hd : d = c
            · subst hd
              simp
            · simp [State.set_client_of_ne hd]
      | @keep _ c events nr rest hpc hdis =>
          refine rank_keep ?_ fun _ => ⟨rfl, rfl⟩
          have hbefore : serverRank w.echo = 5 := by simp [serverRank, hpc, hdis]
          rw [hbefore]
          exact Nat.lt_succ_of_le (serverRank_handling_le _ rfl)
      | @close _ c events nr rest hpc hdis =>
          refine rank_serve_set rfl ?_
          have hphase := h.phase c
          simp only [hpc, Pc.stage, if_true] at hphase
          simp [clientRank, hphase.registered, Conn.rank]

/-! ## Nobody is left behind -/

/-- The server moves on from a place that is not `epoll_wait`. -/
lemma server_moves {s : State C} (hpc : w.echo.pc ≠ .waiting)
    (hstep : Step (Fintype.card C) .server w.echo s) : ∃ l w', WorldStep msg l w w' :=
  ⟨_, _, .server hstep fun h => absurd h hpc⟩

/-- `epoll_wait` returns when something is ready. -/
lemma server_wakes (fd : Fd C) (hpc : w.echo.pc = .waiting) (hready : Ready w.echo fd) :
    ∃ l w', WorldStep msg l w w' := by
  refine ⟨_, _, .server (.wait [fd] hpc ?_ ?_ ?_ ?_) fun _ => ?_⟩
  · simp
  · simp
  · exact List.nodup_singleton fd
  · intro fd' hfd
    rw [List.mem_singleton.mp hfd]
    exact hready
  · simp

/-- While the server waits and a client has not been closed, its process can move or the server has
something to do for it. -/
lemma waiting_moves {c : C} (hmsg : Short msg) (h : WorldInv msg w) (hpc : w.echo.pc = .waiting)
    (hopen : (w.echo.client c).conn ≠ .closed) : ∃ l w', WorldStep msg l w w' := by
  have hne : (msg c).bytes ≠ [] := List.ne_nil_of_length_pos (hmsg c).1
  have hphase := h.phase c
  simp only [hpc, Pc.stage] at hphase
  generalize hpr : w.proc c = pr at hphase
  generalize hcl : w.echo.client c = cl at hphase hopen
  have hwakes : ∀ conn, cl.conn = conn → conn = .pending ∨ conn = .registered →
      (cl.buffer ≠ [] ∨ cl.halfClosed = true) → ∃ l w', WorldStep msg l w w' := by
    rintro conn hconn (rfl | rfl) hready
    · exact server_wakes .lfd hpc ⟨c, by rw [hcl, hconn]⟩
    · refine server_wakes (.cfd c) hpc ⟨by rw [hcl, hconn], ?_⟩
      simpa [Client.report, hcl, or_assoc] using hready
  cases hphase with
  | absent => exact ⟨_, _, .connect (c := c) (by rw [hpr]) (by simp [hpc])⟩
  | connected hconn => exact ⟨_, _, .write (c := c) (by rw [hpr])⟩
  | sent hconn => exact hwakes _ rfl hconn (Or.inl hne)
  | echoed hproc hst =>
      cases hproc with
      | reading =>
          refine ⟨_, _, .read (c := c) (by rw [hpr]) ?_⟩
          rw [hcl]
          exact hne
      | printing =>
          have hprint : (w.proc c).pc = .printing (msg c).bytes := by rw [hpr]
          exact ⟨_, _, .print hprint⟩
      | closing => exact ⟨_, _, .close (c := c) (by rw [hpr])⟩
      | exited => exact hwakes _ rfl (Or.inr rfl) (Or.inr rfl)
  | closed => exact absurd rfl hopen

/-- **Somebody can move** until the server has left. -/
theorem WorldInv.exists_step (hmsg : Short msg) (h : WorldInv msg w) (hdone : w.echo.pc ≠ .done) :
    ∃ l w', WorldStep msg l w w' := by
  cases hpc : w.echo.pc with
  | waiting =>
      have hsome : ∃ c, (w.echo.client c).conn ≠ .closed := by
        by_contra hall
        push Not at hall
        exact hdone (h.done.mpr hall)
      rcases hsome with ⟨c, hc⟩
      exact waiting_moves hmsg h hpc hc
  | handling evs =>
      have hnot : w.echo.pc ≠ .waiting := by simp [hpc]
      rcases evs with _ | ⟨⟨_ | c, events⟩, rest⟩
      · exact server_moves hnot (.endBatch hpc)
      · by_cases hpend : SomePending w.echo
        · rcases hpend with ⟨c, hc⟩
          exact server_moves hnot (.accept hpc hc)
        · exact server_moves hnot (.allAccepted hpc fun c hc => hpend ⟨c, hc⟩)
      · by_cases hdata : (w.echo.client c).buffer = []
        · cases hhalf : (w.echo.client c).halfClosed with
          | true => exact server_moves hnot (.readEof hpc hdata hhalf)
          | false => exact server_moves hnot (.readAgain hpc hdata hhalf)
        · exact server_moves hnot (.read hpc hdata)
  | writing c events buf rest => exact server_moves (by simp [hpc]) (.write hpc)
  | deciding c events nr rest =>
      cases hdis : disconnect nr events with
      | true => exact server_moves (by simp [hpc]) (.close hpc hdis)
      | false => exact server_moves (by simp [hpc]) (.keep hpc hdis)
  | done => exact absurd hpc hdone

/-- The server has left only when every process has exited with its own message. -/
lemma WorldInv.all_served (h : WorldInv msg w) (hdone : w.echo.pc = .done) (c : C) :
    w.proc c = ⟨.exited, some (msg c).bytes⟩ :=
  (h.phase c).of_closed (h.done.mp hdone c)

/-- **Every client is served.**  In every interleaving of the server and its clients, each with one
short message, a client prints nothing but its own message.  The server leaves only when all clients
have printed theirs, no interleaving goes on for ever, and none gets stuck before that. -/
theorem echo_clients_served [Nonempty C] (msg : C → CStr) (hmsg : Short msg)
    {tr : List (Label C × World C)} (h : Trace (echoWorld msg) tr w) :
    (∀ c reply, (w.proc c).shown = some reply → reply = (msg c).bytes)
      ∧ (w.echo.pc = .done → ∀ c, w.proc c = ⟨.exited, some (msg c).bytes⟩)
      ∧ tr.length ≤ 7 * (∑ c, ((msg c).strlen + 7)) + 2
      ∧ (Stuck (echoWorld msg) w → w.echo.pc = .done) := by
  have hinv := worldInv_of_reachable hmsg h.reachable
  refine ⟨fun c reply hshown => (hinv.phase c).shown hshown, hinv.all_served, ?_, fun hstuck => ?_⟩
  · rcases h.length_le_measure (μ := World.rank msg)
      fun _ _ _ hreach hstep => (worldInv_of_reachable hmsg hreach).rank_lt hstep with
      ⟨w₀, rfl, hle⟩
    have hstart : (World.mk start fun _ : C => Proc.mk .connecting none).rank msg
        = 7 * (∑ c, ((msg c).strlen + 7)) + 2 := by
      simp [World.rank, serverRank, start, clientRank, ProcPc.rank, Conn.rank]
    omega
  · by_contra hdone
    rcases hinv.exists_step hmsg hdone with ⟨l, w', hstep⟩
    exact hstuck l w' hstep

/-- The clients of `run_clients`. -/
theorem echo_clients_served_runClients :
    Short clientMsg ∧ ∀ (w : World (Fin NUM_CLIENTS)) (tr : List (Label (Fin NUM_CLIENTS) × _)),
      Trace (echoWorld clientMsg) tr w → Stuck (echoWorld clientMsg) w → w.echo.pc = .done := by
  have hshort : Short clientMsg := fun i => by
    fin_cases i <;> decide +kernel
  have : Nonempty (Fin NUM_CLIENTS) := ⟨⟨0, by decide⟩⟩
  exact ⟨hshort, fun w tr h => (echo_clients_served clientMsg hshort h).2.2.2⟩

end

end CExercises.IoMux.Echo
