import CExercises.IoMux.EchoDef
import Mathlib.Data.List.Nodup
import Mathlib.Tactic.SplitIfs

/-!
# When the echo server loses data

The server handles its clients one at a time and touches nothing but the client of the event at
hand.  So a run of the whole server is, seen from one client, a run of a small machine that knows
only this client and at which `Stage` the server is with it, and everything is proved about that
machine.

The books of a client balance at every moment: what it has sent is what has been written back, then
what the server holds in `buf`, then what is unread.  The server closes a client after a read of at
most 255 bytes for an event with EPOLLRDHUP; whatever is unread then is lost.
-/

namespace CExercises.IoMux.Echo

/-! ## One client -/

/-- What the server is doing with a client. -/
inductive Stage
  | idle
  /-- An event for it is in the batch. -/
  | reported (events : Mask)
  | writing (events : Mask) (buf : List UInt8)
  | deciding (events : Mask) (nr : ℤ)

/-- One step as one client sees it.  The flag marks a read that does not fail. -/
inductive Local : Bool → Client → Stage → Client → Stage → Prop
  | stay {cl : Client} {st : Stage} : Local false cl st cl st
  | connect {cl : Client} {st : Stage} (hconn : cl.conn = .absent) :
      Local false cl st { cl with conn := .pending } st
  | send {cl : Client} {st : Stage} (bytes : List UInt8) (hopen : cl.halfClosed = false) :
      Local false cl st { cl with buffer := cl.buffer ++ bytes, sent := cl.sent ++ bytes } st
  | halfClose {cl : Client} {st : Stage} : Local false cl st { cl with halfClosed := true } st
  | accept {cl : Client} {st : Stage} (hconn : cl.conn = .pending) :
      Local false cl st { cl with conn := .registered } st
  | report {cl : Client} (hconn : cl.conn = .registered)
      (hready : cl.buffer ≠ [] ∨ cl.halfClosed = true) :
      Local false cl .idle cl (.reported cl.report)
  /-- The server leaves in the middle of a batch. -/
  | drop {cl : Client} {events : Mask} : Local false cl (.reported events) cl .idle
  | read {cl : Client} {events : Mask} (hdata : cl.buffer ≠ []) :
      Local true cl (.reported events) { cl with buffer := cl.buffer.drop (SIZEOF_BUF - 1) }
        (.writing events (cl.buffer.take (SIZEOF_BUF - 1)))
  | readEof {cl : Client} {events : Mask} (hdata : cl.buffer = [])
      (hhalf : cl.halfClosed = true) :
      Local true cl (.reported events) cl (.deciding events 0)
  | readAgain {cl : Client} {events : Mask} (hdata : cl.buffer = [])
      (hhalf : cl.halfClosed = false) :
      Local true cl (.reported events) cl (.deciding events (-1))
  | readFails {cl : Client} {events : Mask} :
      Local false cl (.reported events) { cl with failed := true } (.deciding events (-1))
  | write {cl : Client} {events : Mask} {buf : List UInt8} :
      Local false cl (.writing events buf) { cl with written := cl.written ++ buf }
        (.deciding events buf.length)
  | keep {cl : Client} {events : Mask} {nr : ℤ} (hdis : disconnect nr events = false) :
      Local false cl (.deciding events nr) cl .idle
  | close {cl : Client} {events : Mask} {nr : ℤ} (hdis : disconnect nr events = true) :
      Local false cl (.deciding events nr) { cl with conn := .closed } .idle

/-- What is true of a client at each stage. -/
def StageOk (cl : Client) : Stage → Prop
  | .idle => cl.failed = true → cl.conn = .closed
  | .reported events => cl.conn = .registered ∧ cl.failed = false
      ∧ (events.hungUp = true → cl.halfClosed = true) ∧ (cl.buffer ≠ [] ∨ cl.halfClosed = true)
  | .writing events buf => cl.conn = .registered ∧ cl.failed = false
      ∧ (events.hungUp = true → cl.halfClosed = true) ∧ buf ≠ []
  | .deciding events nr => cl.conn = .registered
      ∧ (events.hungUp = true → cl.halfClosed = true)
      ∧ if nr ≤ 0 then cl.failed = true ∨ (cl.halfClosed = true ∧ cl.buffer = [])
        else cl.failed = false

/-- The bytes in `buf`. -/
def Stage.inHand : Stage → List UInt8
  | .writing _ buf => buf
  | _ => []

structure ClientInv (cl : Client) (st : Stage) : Prop where
  books : cl.sent = cl.written ++ st.inHand ++ cl.buffer
  stage : StageOk cl st
  closed : cl.conn = .closed → cl.failed = false → cl.halfClosed = true

/-- Bytes are lost, or will be when the server closes. -/
def Lost (cl : Client) (st : Stage) : Prop :=
  cl.failed = false ∧ cl.buffer ≠ [] ∧
    (cl.conn = .closed ∨ (∃ events buf, st = .writing events buf ∧ events.hungUp = true)
      ∨ ∃ events nr, st = .deciding events nr ∧ events.hungUp = true)

/-- A hang-up was reported, and one read does not take everything. -/
def Overfull (cl : Client) (st : Stage) : Prop :=
  ∃ events, st = .reported events ∧ events.hungUp = true ∧ SIZEOF_BUF - 1 < cl.buffer.length

section

variable {cl cl' : Client} {st st' : Stage} {reads : Bool}

/-- A client that is not in the interest list has no event. -/
lemma idle_of_unregistered (h : StageOk cl st)
    (hreg : cl.conn ≠ .registered) (hclosed : cl.conn ≠ .closed) :
    st = .idle ∧ cl.failed = false := by
  cases st with
  | idle => exact ⟨rfl, by simpa using mt h hclosed⟩
  | reported events => exact absurd h.1 hreg
  | writing events buf => exact absurd h.1 hreg
  | deciding events nr => exact absurd h.1 hreg

/-- **Step of a client.** -/
lemma ClientInv.step (h : ClientInv cl st) (hstep : Local reads cl st cl' st') :
    ClientInv cl' st' := by
  rcases h with ⟨hbooks, hstage, hclosed⟩
  cases hstep with
  | stay => exact ⟨hbooks, hstage, hclosed⟩
  | connect hconn =>
      rcases idle_of_unregistered hstage (by simp [hconn]) (by simp [hconn]) with ⟨rfl, hok⟩
      exact ⟨hbooks, by simp [StageOk, hok], by simp⟩
  | send bytes hopen =>
      refine ⟨by simp [hbooks], ?_, hclosed⟩
      cases st with
      | idle => exact hstage
      | reported events =>
          rcases hstage with ⟨hconn, hok, hmask, hready⟩
          exact ⟨hconn, hok, hmask, hready.imp_left fun hne => by simp [hne]⟩
      | writing events buf => exact hstage
      | deciding events nr =>
          rcases hstage with ⟨hconn, hmask, hnr⟩
          refine ⟨hconn, hmask, ?_⟩
          simpa [hopen] using hnr
  | halfClose =>
      refine ⟨hbooks, ?_, by simp⟩
      cases st with
      | idle => exact hstage
      | reported events => exact ⟨hstage.1, hstage.2.1, by simp, by simp⟩
      | writing events buf => exact ⟨hstage.1, hstage.2.1, by simp, hstage.2.2.2⟩
      | deciding events nr =>
          refine ⟨hstage.1, by simp, ?_⟩
          have hnr := hstage.2.2
          split_ifs at hnr ⊢ with hle
          · exact hnr.imp_right fun hdata => ⟨rfl, hdata.2⟩
          · exact hnr
  | accept hconn =>
      rcases idle_of_unregistered hstage (by simp [hconn]) (by simp [hconn]) with ⟨rfl, hok⟩
      exact ⟨hbooks, by simp [StageOk, hok], by simp⟩
  | report hconn hready =>
      refine ⟨hbooks, ⟨hconn, ?_, by simp [Client.report, Mask.hungUp], hready⟩, hclosed⟩
      simpa [StageOk, hconn] using hstage
  | drop =>
      exact ⟨hbooks, by simp [StageOk, hstage.2.1], hclosed⟩
  | read hdata =>
      refine ⟨?_, ⟨hstage.1, hstage.2.1, hstage.2.2.1, ?_⟩, hclosed⟩
      · simpa [Stage.inHand] using hbooks
      · simp [hdata, SIZEOF_BUF]
  | readEof hdata hhalf =>
      exact ⟨hbooks, ⟨hstage.1, hstage.2.2.1, by simp [hhalf, hdata]⟩, hclosed⟩
  | readAgain hdata hhalf =>
      -- an event was reported because there was something to read, and it is still there
      have hready := hstage.2.2.2
      simp [hdata, hhalf] at hready
  | readFails => exact ⟨hbooks, ⟨hstage.1, hstage.2.2.1, by simp⟩, by simp⟩
  | write =>
      refine ⟨by simpa [Stage.inHand] using hbooks, ⟨hstage.1, hstage.2.2.1, ?_⟩, hclosed⟩
      simp [hstage.2.2.2, hstage.2.1]
  | keep hdis =>
      have hnr := hstage.2.2
      refine ⟨hbooks, ?_, hclosed⟩
      simp only [disconnect, Bool.or_eq_false_iff, decide_eq_false_iff_not] at hdis
      rw [if_neg hdis.1] at hnr
      simp [StageOk, hnr]
  | close hdis =>
      refine ⟨hbooks, by simp [StageOk], fun _ hok => ?_⟩
      have hnr := hstage.2.2
      simp only [disconnect, Bool.or_eq_true, decide_eq_true_eq] at hdis
      split_ifs at hnr with hle
      · exact (hnr.resolve_left (by simpa using hok)).1
      · exact hstage.2.1 (hdis.resolve_left hle)

/-- Only after a half-close can anything be lost. -/
lemma Lost.halfClosed (hlost : Lost cl st) (h : ClientInv cl st) : cl.halfClosed = true := by
  rcases hlost with ⟨hok, _, hconn | ⟨events, buf, rfl, hmask⟩ | ⟨events, nr, rfl, hmask⟩⟩
  · exact h.closed hconn hok
  · exact h.stage.2.2.1 hmask
  · exact h.stage.2.1 hmask

/-- **What a step loses.**  The one way to lose bytes is a read for an event with a hang-up that
leaves some. -/
lemma lost_step (h : ClientInv cl st) (hstep : Local reads cl st cl' st') :
    Lost cl' st' ↔ Lost cl st ∨ (reads = true ∧ Overfull cl st) := by
  have h' := h.step hstep
  have hstage := h.stage
  cases hstep with
  | stay => simp
  | connect hconn => simp [Lost, hconn]
  | send bytes hopen =>
      have hlost : ¬ Lost cl st := fun hlost => by simpa [hopen] using hlost.halfClosed h
      simp only [hlost, Bool.false_eq_true, false_and, or_self, iff_false]
      exact fun hlost' => by simpa [hopen] using hlost'.halfClosed h'
  | halfClose => simp [Lost]
  | accept hconn => simp [Lost, hconn]
  | report hconn hready => simp [Lost, hconn]
  | drop => simp [Lost]
  | read hdata => simp [Lost, Overfull, hstage.1, hstage.2.1, and_comm]
  | readEof hdata hhalf => simp [Lost, Overfull, hdata]
  | readAgain hdata hhalf => simp [Lost, Overfull, hdata]
  | readFails => simp [Lost, hstage.1]
  | write => simp [Lost]
  | keep hdis =>
      simp only [disconnect, Bool.or_eq_false_iff] at hdis
      simp [Lost, hdis.2]
  | close hdis =>
      have hnr := hstage.2.2
      simp only [disconnect, Bool.or_eq_true, decide_eq_true_eq] at hdis
      split_ifs at hnr with hle
      · rcases hnr with hfail | hdata
        · simp [Lost, hfail]
        · simp [Lost, hdata.2]
      · simp [Lost, hdis.resolve_left hle]

end

/-! ## The server, seen from one client -/

lemma map_fd_eventFor {C : Type} (s : State C) (fds : List (Fd C)) :
    (fds.map (eventFor s)).map Event.fd = fds := by
  induction fds with
  | nil => rfl
  | cons fd fds ih => cases fd <;> simpa [eventFor] using ih

section

variable {C : Type} [DecidableEq C]

/-- The event of a client among those that are still to come. -/
def reportedIn : List (Event C) → C → Stage
  | [], _ => .idle
  | ev :: rest, c => match ev.fd with
      | .lfd => reportedIn rest c
      | .cfd c' => if c' = c then .reported ev.events else reportedIn rest c

def Pc.stage : Pc C → C → Stage
  | .waiting, _ => .idle
  | .handling evs, c => reportedIn evs c
  | .writing c' events buf rest, c => if c' = c then .writing events buf else reportedIn rest c
  | .deciding c' events nr rest, c => if c' = c then .deciding events nr else reportedIn rest c
  | .done, _ => .idle

/-- The descriptors of the batch, from the one at hand on. -/
def Pc.fds : Pc C → List (Fd C)
  | .waiting => []
  | .handling evs => evs.map Event.fd
  | .writing c _ _ rest => .cfd c :: rest.map Event.fd
  | .deciding c _ _ rest => .cfd c :: rest.map Event.fd
  | .done => []

variable {numClients : ℤ} {l : Label C} {s s' : State C}

@[simp]
lemma State.set_pc (s : State C) (c : C) (cl : Client) : (s.set c cl).pc = s.pc := rfl

@[simp]
lemma State.set_client_self (s : State C) (c : C) (cl : Client) : (s.set c cl).client c = cl :=
  Function.update_self _ _ _

lemma State.set_client_of_ne {c c' : C} (hc : c' ≠ c) (s : State C) (cl : Client) :
    (s.set c cl).client c' = s.client c' :=
  Function.update_of_ne hc _ _

lemma reportedIn_of_not_mem {c : C} {evs : List (Event C)} (h : Fd.cfd c ∉ evs.map Event.fd) :
    reportedIn evs c = .idle := by
  induction evs with
  | nil => rfl
  | cons ev rest ih =>
      rw [List.map_cons, List.mem_cons, not_or] at h
      rcases ev with ⟨_ | c', events⟩
      · exact ih h.2
      · have hne : c' ≠ c := fun hc => h.1 (hc ▸ rfl)
        simp only [reportedIn, if_neg hne]
        exact ih h.2

lemma reportedIn_cases (evs : List (Event C)) (c : C) :
    reportedIn evs c = .idle ∨ ∃ events, reportedIn evs c = .reported events := by
  induction evs with
  | nil => exact Or.inl rfl
  | cons ev rest ih =>
      rcases ev with ⟨_ | c', events⟩
      · exact ih
      · by_cases hc : c' = c
        · exact Or.inr ⟨events, by simp [reportedIn, hc]⟩
        · simpa [reportedIn, hc] using ih

/-- What a batch says of a client is what the kernel reported. -/
lemma reportedIn_map (s : State C) {c : C} {fds : List (Fd C)} (h : Fd.cfd c ∈ fds) :
    reportedIn (fds.map (eventFor s)) c = .reported (s.client c).report := by
  induction fds with
  | nil => simp at h
  | cons fd fds ih =>
      cases fd with
      | lfd => exact ih (by simpa using h)
      | cfd c' =>
          by_cases hc : c' = c
          · subst hc
            simp [reportedIn, eventFor]
          · simp only [List.map_cons, reportedIn, eventFor, if_neg hc]
            exact ih (by simpa [Ne.symm hc] using h)

/-- A batch has one event for each descriptor. -/
lemma fds_nodup_step (h : s.pc.fds.Nodup) (hstep : Step numClients l s s') : s'.pc.fds.Nodup := by
  cases hstep with
  | connect hconn => exact h
  | send bytes hconn hopen => exact h
  | halfClose hconn => exact h
  | wait fds hpc hpos hmax hnodup hready =>
      rw [← map_fd_eventFor s fds] at hnodup
      exact hnodup
  | leave hpc => exact List.nodup_nil
  | endBatch hpc => exact List.nodup_nil
  | accept hpc hconn => exact h
  | allAccepted hpc hnone =>
      rw [hpc] at h
      exact h.of_cons
  | read hpc hdata =>
      rw [hpc] at h
      exact h
  | readEof hpc hdata hhalf =>
      rw [hpc] at h
      exact h
  | readAgain hpc hdata hhalf =>
      rw [hpc] at h
      exact h
  | readFails hpc =>
      rw [hpc] at h
      exact h
  | write hpc =>
      rw [hpc] at h
      exact h
  | keep hpc hdis =>
      rw [hpc] at h
      exact h.of_cons
  | close hpc hdis =>
      rw [hpc] at h
      dsimp only
      split_ifs with hlast
      · exact List.nodup_nil
      · exact h.of_cons

/-- The step reads from a client, and the read does not fail. -/
def Reads (l : Label C) (s : State C) (c : C) : Prop :=
  l = .server ∧ ∃ events rest, s.pc = .handling (⟨.cfd c, events⟩ :: rest)

/-- A step of one client's machine that leaves the others alone. -/
lemma local_of_one (reads : Bool) (c' : C)
    (hself : Local reads (s.client c') (s.pc.stage c') (s'.client c') (s'.pc.stage c'))
    (hclient : ∀ c, c ≠ c' → s'.client c = s.client c)
    (hstage : ∀ c, c ≠ c' → s'.pc.stage c = s.pc.stage c)
    (hreads : ∀ c, Reads l s c ↔ c = c' ∧ reads = true) (c : C) :
    ∃ reads, Local reads (s.client c) (s.pc.stage c) (s'.client c) (s'.pc.stage c)
      ∧ (reads = true ↔ Reads l s c) := by
  by_cases hc : c = c'
  · subst hc
    exact ⟨reads, hself, by simp [hreads]⟩
  · rw [hclient c hc, hstage c hc]
    exact ⟨false, .stay, by simp [hreads, hc]⟩

/-- **A step of the server is, for each client, a step of its own machine.** -/
lemma local_of_step (hnodup : s.pc.fds.Nodup) (hstep : Step numClients l s s') : ∀ c : C,
    ∃ reads, Local reads (s.client c) (s.pc.stage c) (s'.client c) (s'.pc.stage c)
      ∧ (reads = true ↔ Reads l s c) := by
  cases hstep with
  | connect hconn =>
      exact local_of_one false _ (by simpa using .connect hconn)
        (fun c hc => State.set_client_of_ne hc _ _) (fun _ _ => rfl) (by simp [Reads])
  | send bytes hconn hopen =>
      exact local_of_one false _ (by simpa using .send bytes hopen)
        (fun c hc => State.set_client_of_ne hc _ _) (fun _ _ => rfl) (by simp [Reads])
  | halfClose hconn =>
      exact local_of_one false _ (by simpa using .halfClose)
        (fun c hc => State.set_client_of_ne hc _ _) (fun _ _ => rfl) (by simp [Reads])
  | wait fds hpc hpos hmax hnd hready =>
      intro c
      refine ⟨false, ?_, by simp [Reads, hpc]⟩
      simp only [hpc, Pc.stage]
      by_cases hc : Fd.cfd c ∈ fds
      · rw [reportedIn_map s hc]
        rcases hready _ hc with ⟨hconn, hbits⟩
        refine .report hconn ?_
        simpa [Client.report, or_assoc] using hbits
      · rw [reportedIn_of_not_mem (by rwa [map_fd_eventFor])]
        exact .stay
  | leave hpc =>
      intro c
      refine ⟨false, ?_, by simp [Reads, hpc]⟩
      simp only [hpc, Pc.stage]
      exact .stay
  | endBatch hpc =>
      intro c
      refine ⟨false, ?_, by simp [Reads, hpc]⟩
      simp only [hpc, Pc.stage, reportedIn]
      exact .stay
  | accept hpc hconn =>
      exact local_of_one false _ (by simpa using .accept hconn)
        (fun c hc => State.set_client_of_ne hc _ _) (fun _ _ => rfl) (by simp [Reads, hpc])
  | allAccepted hpc hnone =>
      intro c
      refine ⟨false, ?_, by simp [Reads, hpc]⟩
      simp only [hpc, Pc.stage, reportedIn]
      exact .stay
  | read hpc hdata =>
      refine local_of_one true _ (by simpa [hpc, Pc.stage, reportedIn] using .read hdata)
        (fun c hc => State.set_client_of_ne hc _ _) (fun c hc => ?_) (by simp [Reads, hpc, eq_comm])
      simp [hpc, Pc.stage, reportedIn, Ne.symm hc]
  | @readEof _ c' events rest hpc hdata hhalf =>
      refine local_of_one true c' (by simpa [hpc, Pc.stage, reportedIn] using .readEof hdata hhalf)
        (fun _ _ => rfl) (fun c hc => ?_) (by simp [Reads, hpc, eq_comm])
      simp [hpc, Pc.stage, reportedIn, Ne.symm hc]
  | @readAgain _ c' events rest hpc hdata hhalf =>
      refine local_of_one true c'
        (by simpa [hpc, Pc.stage, reportedIn] using .readAgain hdata hhalf) (fun _ _ => rfl)
        (fun c hc => ?_) (by simp [Reads, hpc, eq_comm])
      simp [hpc, Pc.stage, reportedIn, Ne.symm hc]
  | readFails hpc =>
      refine local_of_one false _ (by simpa [hpc, Pc.stage, reportedIn] using .readFails)
        (fun c hc => State.set_client_of_ne hc _ _) (fun c hc => ?_) (by simp [Reads, hpc, eq_comm])
      simp [hpc, Pc.stage, reportedIn, Ne.symm hc]
  | write hpc =>
      refine local_of_one false _ (by simpa [hpc, Pc.stage] using .write)
        (fun c hc => State.set_client_of_ne hc _ _) (fun c hc => ?_) (by simp [Reads, hpc, eq_comm])
      simp [hpc, Pc.stage, Ne.symm hc]
  | @keep _ c' events nr rest hpc hdis =>
      rw [hpc] at hnodup
      have hgone : reportedIn rest c' = .idle := reportedIn_of_not_mem (List.nodup_cons.mp hnodup).1
      refine local_of_one false c' (by simpa [hpc, Pc.stage, hgone] using .keep hdis)
        (fun _ _ => rfl) (fun c hc => ?_) (by simp [Reads, hpc])
      simp [hpc, Pc.stage, Ne.symm hc]
  | @close _ c' events nr rest hpc hdis =>
      rw [hpc] at hnodup
      have hgone : reportedIn rest c' = .idle := reportedIn_of_not_mem (List.nodup_cons.mp hnodup).1
      intro c
      refine ⟨false, ?_, by simp [Reads, hpc]⟩
      by_cases hc : c = c'
      · subst hc
        have hidle : (if s.active - 1 = 0 ∧ s.totalSeen = numClients then Pc.done
            else .handling rest).stage c = .idle := by
          split_ifs with hlast
          · rfl
          · exact hgone
        rw [hidle]
        simpa [hpc, Pc.stage] using .close hdis
      · simp only [State.set_client_of_ne hc, hpc, Pc.stage, if_neg (Ne.symm hc)]
        split_ifs with hlast
        · rcases reportedIn_cases rest c with hst | ⟨events, hst⟩
          · rw [hst]
            exact .stay
          · rw [hst]
            exact .drop
        · exact .stay

/-! ## Runs -/

/-- If the step reads from a client after a hang-up was reported, one read takes everything. -/
def Fits (l : Label C) (s : State C) : Prop :=
  ∀ c events rest, l = .server → s.pc = .handling (⟨.cfd c, events⟩ :: rest) →
    events.hungUp = true → (s.client c).buffer.length ≤ SIZEOF_BUF - 1

/-- An event is being handled: it has been read, and not yet decided on. -/
def Pc.midEvent : Pc C → Bool
  | .writing .. => true
  | .deciding .. => true
  | _ => false

lemma not_fits_iff : ¬ Fits l s ↔ ∃ c, Reads l s c ∧ Overfull (s.client c) (s.pc.stage c) := by
  simp only [Fits, not_forall, Nat.not_le, Reads, Overfull]
  constructor
  · rintro ⟨c, events, rest, rfl, hpc, hup, hlong⟩
    exact ⟨c, ⟨rfl, events, rest, hpc⟩, events, by simp [hpc, Pc.stage, reportedIn], hup, hlong⟩
  · rintro ⟨c, ⟨rfl, events, rest, hpc⟩, events', hst, hup, hlong⟩
    rw [hpc] at hst
    simp only [Pc.stage, reportedIn, if_true, Stage.reported.injEq] at hst
    exact ⟨c, events, rest, rfl, hpc, hst ▸ hup, hlong⟩

/-- **Run.** -/
theorem inv_of_reachable (h : Reachable (echoServer numClients) s) :
    s.pc.fds.Nodup ∧ ∀ c, ClientInv (s.client c) (s.pc.stage c) := by
  refine h.invariant (I := fun s => s.pc.fds.Nodup ∧ ∀ c, ClientInv (s.client c) (s.pc.stage c))
    ?_ ?_
  · rintro s rfl
    exact ⟨List.nodup_nil, fun c => ⟨rfl, by simp [start, Pc.stage, StageOk], by simp [start]⟩⟩
  · rintro l s s' ⟨hnodup, hinv⟩ hstep
    refine ⟨fds_nodup_step hnodup hstep, fun c => ?_⟩
    rcases local_of_step hnodup hstep c with ⟨reads, hlocal, _⟩
    exact (hinv c).step hlocal

/-- Something is lost at the end exactly when a step on the way left something unread. -/
lemma lost_iff {tr : List (Label C × State C)} (h : Trace (echoServer numClients) tr s) :
    (∃ c, Lost (s.client c) (s.pc.stage c)) ↔ ∃ p ∈ tr, ¬ Fits p.1 p.2 := by
  refine h.exists_step_iff (I := fun s => ∃ c, Lost (s.client c) (s.pc.stage c))
    (P := fun l s => ¬ Fits l s) ?_ ?_
  · rintro s rfl
    simp [Lost, start]
  · intro l s s' hreach hstep
    rcases inv_of_reachable hreach with ⟨hnodup, hinv⟩
    have hone : ∀ c, Lost (s'.client c) (s'.pc.stage c) ↔ Lost (s.client c) (s.pc.stage c)
        ∨ (Reads l s c ∧ Overfull (s.client c) (s.pc.stage c)) := by
      intro c
      rcases local_of_step hnodup hstep c with ⟨reads, hlocal, hreads⟩
      rw [lost_step (hinv c) hlocal, hreads]
    rw [not_fits_iff, ← exists_or]
    exact exists_congr hone

/-- A client that is closed has got back everything if nothing is unread. -/
lemma ClientInv.written_eq_sent_iff {cl : Client} {st : Stage} (h : ClientInv cl st)
    (hconn : cl.conn = .closed) : cl.written = cl.sent ↔ cl.buffer = [] := by
  have hst : st = .idle := by
    have hstage := h.stage
    cases st with
    | idle => rfl
    | reported events => simp [StageOk, hconn] at hstage
    | writing events buf => simp [StageOk, hconn] at hstage
    | deciding events nr => simp [StageOk, hconn] at hstage
  rw [h.books, hst]
  simp [Stage.inHand]

/-- Between two events the server holds nothing and decides nothing. -/
lemma stage_of_not_midEvent {pc : Pc C} (h : pc.midEvent = false) (c : C) :
    pc.stage c = .idle ∨ ∃ events, pc.stage c = .reported events := by
  cases pc with
  | waiting => exact Or.inl rfl
  | handling evs => exact reportedIn_cases evs c
  | writing c' events buf rest => cases h
  | deciding c' events nr rest => cases h
  | done => exact Or.inl rfl

lemma losesNothing_of_fits {tr : List (Label C × State C)}
    (h : Trace (echoServer numClients) tr s) (hfits : ∀ p ∈ tr, Fits p.1 p.2) :
    LosesNothing s := by
  intro c hconn hok
  rw [((inv_of_reachable h.reachable).2 c).written_eq_sent_iff hconn]
  by_contra hunread
  rcases (lost_iff h).mp ⟨c, hok, hunread, Or.inl hconn⟩ with ⟨p, hp, hnot⟩
  exact hnot (hfits p hp)

lemma fits_of_losesNothing {tr : List (Label C × State C)}
    (h : Trace (echoServer numClients) tr s) (hrest : s.pc.midEvent = false)
    (hsafe : LosesNothing s) : ∀ p ∈ tr, Fits p.1 p.2 := by
  by_contra hnot
  simp only [not_forall] at hnot
  rcases hnot with ⟨p, hp, hnot⟩
  rcases (lost_iff h).mpr ⟨p, hp, hnot⟩ with ⟨c, hok, hunread, hwhere⟩
  rcases hwhere with hconn | ⟨events, buf, hst, _⟩ | ⟨events, nr, hst, _⟩
  · have hinv := (inv_of_reachable h.reachable).2 c
    exact hunread ((hinv.written_eq_sent_iff hconn).mp (hsafe c hconn hok))
  · simpa [hst] using stage_of_not_midEvent hrest c
  · simpa [hst] using stage_of_not_midEvent hrest c

/-- **When the echo server loses nothing.**  In a run in which, whenever an event with a hang-up is
handled, at most 255 bytes are unread, every client that is closed has got everything back, at the
end and at every moment before.  And in no other: a run that ends between two events, with
everything got back, is such a run. -/
theorem echo_server_loses_nothing (numClients : ℤ) {tr : List (Label C × State C)} {s : State C}
    (h : Trace (echoServer numClients) tr s) :
    ((∀ p ∈ tr, Fits p.1 p.2) → LosesNothing s ∧ ∀ p ∈ tr, LosesNothing p.2)
    ∧ (s.pc.midEvent = false → LosesNothing s → ∀ p ∈ tr, Fits p.1 p.2) := by
  constructor
  · intro hfits
    refine ⟨losesNothing_of_fits h hfits, fun p hp => ?_⟩
    rcases h.of_mem hp with ⟨tr', hsub, h'⟩
    exact losesNothing_of_fits h' fun q hq => hfits q (hsub hq)
  · exact fits_of_losesNothing h

end

/-! ## A run with one client -/

/-- One client connects, sends `bytes` and half-closes; then the server accepts it and handles one
event for it. -/
lemma trace_one_client (bytes : List UInt8) (hne : bytes ≠ []) :
    ∃ (tr : List (Label Unit × State Unit)) (s : State Unit), Trace (echoServer 3) tr s
      ∧ s.client () = ⟨.closed, bytes.drop 255, true, false, bytes, bytes.take 255⟩
      ∧ ∀ p ∈ tr, (p.2.client ()).buffer.length ≤ bytes.length := by
  have h₀ : Trace (echoServer 3) [] (start : State Unit) := .init rfl
  have h₁ := h₀.step _ (Step.connect (c := ()) rfl)
  have h₂ := h₁.step _ (Step.send (c := ()) bytes (by simp [start]) rfl)
  have h₃ := h₂.step _ (Step.halfClose (c := ()) (by simp [start]))
  have h₄ := h₃.step _ (Step.wait [.lfd] rfl (by simp) (by simp) (by simp) (by simp [Ready, start]))
  have h₅ := h₄.step _ (Step.accept (c := ()) rfl rfl)
  have h₆ := h₅.step _ (Step.allAccepted rfl (by simp))
  have h₇ := h₆.step _ (Step.endBatch rfl)
  have h₈ := h₇.step _ (Step.wait [.cfd ()] rfl (by simp) (by simp) (by simp)
    (by simp [Ready, Client.report]))
  have h₉ := h₈.step _ (Step.read (c := ()) rfl (by simpa [start] using hne))
  have h₁₀ := h₉.step _ (Step.write rfl)
  have h₁₁ := h₁₀.step _ (Step.close rfl (by simp [disconnect, Mask.hungUp, Client.report]))
  refine ⟨_, _, h₁₁, ?_, ?_⟩
  · simp [start, SIZEOF_BUF]
  · simp [start]

/-- Two bytes fit, and come back. -/
theorem echo_server_loses_nothing_short :
    ∃ (tr : List (Label Unit × State Unit)) (s : State Unit), Trace (echoServer 3) tr s
      ∧ (s.client ()).conn = .closed ∧ (s.client ()).written = [104, 105]
      ∧ (∀ p ∈ tr, Fits p.1 p.2) ∧ LosesNothing s := by
  rcases trace_one_client [104, 105] (by simp) with ⟨tr, s, h, hend, hshort⟩
  have hfits : ∀ p ∈ tr, Fits p.1 p.2 := fun p hp _ _ _ _ _ _ =>
    Nat.le_trans (hshort p hp) (by simp [SIZEOF_BUF])
  exact ⟨tr, s, h, by rw [hend], by rw [hend]; rfl, hfits,
    ((echo_server_loses_nothing 3 h).1 hfits).1⟩

/-- With 256 bytes the last one is lost. -/
theorem echo_server_drops_tail :
    ∃ s : State Unit, Reachable (echoServer 3) s ∧ (s.client ()).conn = .closed
      ∧ (s.client ()).failed = false ∧ (s.client ()).sent = List.replicate 256 65
      ∧ (s.client ()).written = List.replicate 255 65 ∧ ¬ LosesNothing s := by
  have hne : List.replicate 256 (65 : UInt8) ≠ [] := List.cons_ne_nil _ _
  rcases trace_one_client _ hne with ⟨tr, s, h, hend, _⟩
  have hwritten : (s.client ()).written = List.replicate 255 65 := by
    rw [hend]
    exact List.take_replicate
  refine ⟨s, h.reachable, by rw [hend], by rw [hend], by rw [hend], hwritten, ?_⟩
  intro hsafe
  have hsame := congrArg List.length (hsafe () (by rw [hend]) (by rw [hend]))
  rw [hwritten, hend, List.length_replicate, List.length_replicate] at hsame
  omega

end CExercises.IoMux.Echo
