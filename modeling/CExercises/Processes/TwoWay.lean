import CExercises.Processes.Def
import Mathlib.Data.List.TakeWhile

/-!
# The answer comes back

In every interleaving the parent prints the answer to its message, nobody is killed by `SIGPIPE`,
and no process waits for ever.  This is the work of the first two calls of `close` on either side.
The child waits for the message, and for an empty one it waits for the end of the file, which comes
only because it has closed its own write end of that pipe and the parent closes the other; and
neither pipe loses its reader before it has been written, because a process closes the end that it
reads from after its read.

Which ends a process holds is a matter of where it stands, and so is what is in the pipes.
-/

namespace CExercises.Processes

/-! ## Where a process stands -/

/-- The ends that the parent holds. -/
def ParentPc.held : ParentPc → End Pipe → Bool
  | .closeToChildRead, _ => true
  | .closeToParentWrite, e => e ≠ .r .toChild
  | .write, e => e = .w .toChild ∨ e = .r .toParent
  | .closeToChildWrite, e => e = .w .toChild ∨ e = .r .toParent
  | .read, e => e = .r .toParent
  | .print _, e => e = .r .toParent
  | .closeToParentRead, e => e = .r .toParent
  | _, _ => false

/-- The ends that the child holds. -/
def ChildPc.held : ChildPc → End Pipe → Bool
  | .closeToChildWrite, _ => true
  | .closeToParentRead, e => e ≠ .w .toChild
  | .read, e => e = .r .toChild ∨ e = .w .toParent
  | .write _, e => e = .r .toChild ∨ e = .w .toParent
  | .closeToChildRead, e => e = .r .toChild ∨ e = .w .toParent
  | .closeToParentWrite, e => e = .w .toParent
  | _, _ => false

/-- The parent has written. -/
def ParentPc.written : ParentPc → Bool
  | .closeToChildRead => false
  | .closeToParentWrite => false
  | .write => false
  | _ => true

/-- The parent has read. -/
def ParentPc.received : ParentPc → Bool
  | .print _ => true
  | .closeToParentRead => true
  | .waitpid => true
  | .done => true
  | _ => false

/-- The parent has printed. -/
def ParentPc.printed : ParentPc → Bool
  | .closeToParentRead => true
  | .waitpid => true
  | .done => true
  | _ => false

/-- The child has read. -/
def ChildPc.received : ChildPc → Bool
  | .write _ => true
  | .closeToChildRead => true
  | .closeToParentWrite => true
  | .exited => true
  | _ => false

/-- The child has answered. -/
def ChildPc.answered : ChildPc → Bool
  | .closeToChildRead => true
  | .closeToParentWrite => true
  | .exited => true
  | _ => false

/-- The answer to a message. -/
def answer (msg : List UInt8) : List UInt8 := response (msg.take (SIZEOF_BUF - 1))

/-- What every interleaving preserves. -/
structure Inv (msg : List UInt8) (s : State) : Prop where
  parentHeld : s.pipes.held .parent = s.parent.held
  childHeld : s.pipes.held .child = s.child.held
  toChild : s.pipes.buf .toChild
    = if s.child.received then msg.drop (SIZEOF_BUF - 1) else if s.parent.written then msg else []
  toParent : s.pipes.buf .toParent
    = if s.child.answered && !s.parent.received then answer msg else []
  messageFirst : s.child.received = true → s.parent.written = true
  answerFirst : s.parent.received = true → s.child.answered = true
  buf : ∀ bytes, s.child = .write bytes → bytes = msg.take (SIZEOF_BUF - 1)
  resp : ∀ bytes, s.parent = .print bytes → bytes = answer msg
  out : s.out = if s.parent.printed then [answer msg] else []
  reaped : s.parent = .done → s.child = .exited
  alive : s.parent ≠ .killed ∧ s.child ≠ .killed

variable {msg : List UInt8} {s s' : State} {who : Who}

lemma length_cstr_le (bytes : List UInt8) : (cstr bytes).length ≤ bytes.length :=
  (List.takeWhile_prefix _).length_le

/-- Every answer fits in `resp`. -/
lemma length_answer_le (msg : List UInt8) : (answer msg).length ≤ 133 := by
  have hcstr := length_cstr_le (msg.take (SIZEOF_BUF - 1))
  simp only [List.length_take, SIZEOF_BUF] at hcstr
  simp only [answer, response, List.length_append, echoText, List.length_cons, List.length_nil,
    SIZEOF_BUF]
  omega

/-- The answer is printed as it is. -/
lemma cstr_answer (msg : List UInt8) : cstr (answer msg) = answer msg := by
  simp [cstr, answer, response, echoText, List.takeWhile_idem]

lemma answer_ne_nil (msg : List UInt8) : answer msg ≠ [] := by
  simp [answer, response, echoText]

/-! ## Who holds what -/

lemma ParentPc.holds_write {pc : ParentPc} (h : pc.written = false) : pc.held (.w .toChild) = true := by
  cases pc <;> first | rfl | cases h

lemma ParentPc.holds_read {pc : ParentPc} (h : pc.received = false) (halive : pc ≠ .killed) :
    pc.held (.r .toParent) = true := by
  cases pc <;> first | rfl | exact absurd rfl halive | cases h

lemma ChildPc.holds_write {pc : ChildPc} (h : pc.answered = false) (halive : pc ≠ .killed) :
    pc.held (.w .toParent) = true := by
  cases pc <;> first | rfl | exact absurd rfl halive | cases h

lemma ChildPc.holds_read {pc : ChildPc} (h : pc.received = false) (halive : pc ≠ .killed) :
    pc.held (.r .toChild) = true := by
  cases pc <;> first | rfl | exact absurd rfl halive | cases h

/-- A process closes an end. -/
lemma close_held_self (k : Pipes Who Pipe) {f g : End Pipe → Bool} {e : End Pipe}
    (hheld : k.held who = f) (he : ∀ e', g e' = if e' = e then false else f e') :
    (k.close who e).held who = g := by
  funext e'
  simp only [Pipes.close, Function.update_self, Function.update_apply, he, hheld]

lemma close_held_of_ne (k : Pipes Who Pipe) {who' : Who} (hne : who' ≠ who) (e : End Pipe) :
    (k.close who e).held who' = k.held who' :=
  Function.update_of_ne hne _ _

/-! ## Steps -/

/-- The parent closes an end, and has neither written nor read nor printed by that. -/
lemma Inv.parentCloses (h : Inv msg s) {e : End Pipe} {pc pc' : ParentPc} (hpc : s.parent = pc)
    (hheld : ∀ e', pc'.held e' = if e' = e then false else pc.held e')
    (hwritten : pc'.written = pc.written) (hreceived : pc'.received = pc.received)
    (hprinted : pc'.printed = pc.printed) (hprint : ∀ resp, pc' ≠ .print resp)
    (hdone : pc' ≠ .done) (hkilled : pc' ≠ .killed) :
    Inv msg { s.close .parent e with parent := pc' } where
  parentHeld := close_held_self _ (hpc ▸ h.parentHeld) hheld
  childHeld := (close_held_of_ne _ (by simp) _).trans h.childHeld
  toChild := by
    rw [hwritten, ← hpc]
    exact h.toChild
  toParent := by
    rw [hreceived, ← hpc]
    exact h.toParent
  messageFirst := by
    rw [hwritten, ← hpc]
    exact h.messageFirst
  answerFirst := by
    rw [hreceived, ← hpc]
    exact h.answerFirst
  buf := h.buf
  resp bytes hprinting := absurd hprinting (hprint bytes)
  out := by
    rw [hprinted, ← hpc]
    exact h.out
  reaped hreap := absurd hreap hdone
  alive := ⟨hkilled, h.alive.2⟩

/-- The child closes an end, and has neither read nor answered by that. -/
lemma Inv.childCloses (h : Inv msg s) {e : End Pipe} {pc pc' : ChildPc} (hpc : s.child = pc)
    (hheld : ∀ e', pc'.held e' = if e' = e then false else pc.held e')
    (hreceived : pc'.received = pc.received) (hanswered : pc'.answered = pc.answered)
    (hwrite : ∀ buf, pc' ≠ .write buf) (hrun : pc ≠ .exited) (hkilled : pc' ≠ .killed) :
    Inv msg { s.close .child e with child := pc' } where
  parentHeld := (close_held_of_ne _ (by simp) _).trans h.parentHeld
  childHeld := close_held_self _ (hpc ▸ h.childHeld) hheld
  toChild := by
    rw [hreceived, ← hpc]
    exact h.toChild
  toParent := by
    rw [hanswered, ← hpc]
    exact h.toParent
  messageFirst := by
    rw [hreceived, ← hpc]
    exact h.messageFirst
  answerFirst := by
    rw [hanswered, ← hpc]
    exact h.answerFirst
  buf bytes hwriting := absurd hwriting (hwrite bytes)
  resp := h.resp
  out := h.out
  reaped hreap := absurd (hpc ▸ h.reaped hreap) hrun
  alive := ⟨h.alive.1, hkilled⟩

/-- The child has the message after its read. -/
lemma Inv.childReads (h : Inv msg s) {bytes : List UInt8} {k : Pipes Who Pipe}
    (hpc : s.child = .read) (hread : s.pipes.Read .child .toChild (SIZEOF_BUF - 1) bytes k) :
    s.parent.written = true ∧ bytes = msg.take (SIZEOF_BUF - 1)
      ∧ k = s.pipes.skip .toChild (SIZEOF_BUF - 1) := by
  have hbuf := h.toChild
  simp only [hpc, ChildPc.received] at hbuf
  have hwritten : s.parent.written = true := by
    by_contra hnot
    rw [Bool.not_eq_true] at hnot
    simp only [hnot] at hbuf
    cases hread with
    | data hheld hdata => exact hdata hbuf
    | eof hheld hempty hclosed =>
        refine hclosed ⟨.parent, ?_⟩
        rw [h.parentHeld]
        exact ParentPc.holds_write hnot
  obtain ⟨rfl, rfl⟩ := hread.eq
  simp only [hwritten] at hbuf
  exact ⟨hwritten, by rw [hbuf]; rfl, rfl⟩

/-- The parent has the answer after its read. -/
lemma Inv.parentReads (h : Inv msg s) {bytes : List UInt8} {k : Pipes Who Pipe}
    (hpc : s.parent = .read) (hread : s.pipes.Read .parent .toParent (SIZEOF_RESP - 1) bytes k) :
    s.child.answered = true ∧ bytes = answer msg
      ∧ k = s.pipes.skip .toParent (SIZEOF_RESP - 1) := by
  have hbuf := h.toParent
  simp only [hpc, ParentPc.received, Bool.not_false, Bool.and_true] at hbuf
  have hanswered : s.child.answered = true := by
    by_contra hnot
    rw [Bool.not_eq_true] at hnot
    simp only [hnot] at hbuf
    cases hread with
    | data hheld hdata => exact hdata hbuf
    | eof hheld hempty hclosed =>
        refine hclosed ⟨.child, ?_⟩
        rw [h.childHeld]
        exact ChildPc.holds_write hnot h.alive.2
  obtain ⟨rfl, rfl⟩ := hread.eq
  simp only [hanswered, if_true] at hbuf
  refine ⟨hanswered, ?_, rfl⟩
  have hlen := length_answer_le msg
  rw [hbuf, List.take_of_length_le]
  unfold SIZEOF_RESP
  omega

/-- **Step.** -/
theorem Inv.step (h : Inv msg s) (hstep : Step msg who s s') : Inv msg s' := by
  cases hstep with
  | parentCloseToChildRead hpc =>
      exact h.parentCloses hpc (by rintro (q | q) <;> cases q <;> rfl) rfl rfl rfl (by simp) (by simp)
        (by simp)
  | parentCloseToParentWrite hpc =>
      exact h.parentCloses hpc (by rintro (q | q) <;> cases q <;> rfl) rfl rfl rfl (by simp) (by simp)
        (by simp)
  | parentWrite hpc hwrite =>
      cases hwrite
      have hnot : s.child.received = false := by
        by_contra hyes
        simpa [hpc, ParentPc.written] using h.messageFirst (by simpa using hyes)
      have hbuf := h.toChild
      have hans := h.toParent
      have hfirst := h.answerFirst
      have hout := h.out
      rw [hpc] at hans hfirst hout hbuf
      refine ⟨?_, h.childHeld, ?_, hans, fun _ => rfl, hfirst, h.buf, by simp, hout, by simp,
        by simp, h.alive.2⟩
      · rw [Pipes.put_held, h.parentHeld, hpc]
        rfl
      · simp only [Pipes.put, Function.update_self, hbuf, hnot]
        rfl
  | parentBroken hpc hbroken =>
      -- the child holds the read end until it has read, and it cannot have read yet
      have hnot : s.child.received = false := by
        by_contra hyes
        simpa [hpc, ParentPc.written] using h.messageFirst (by simpa using hyes)
      refine absurd ⟨.child, ?_⟩ hbroken.2
      rw [h.childHeld]
      exact ChildPc.holds_read hnot h.alive.2
  | parentCloseToChildWrite hpc =>
      exact h.parentCloses hpc (by rintro (q | q) <;> cases q <;> rfl) rfl rfl rfl (by simp) (by simp)
        (by simp)
  | parentRead hpc hread =>
      obtain ⟨hanswered, rfl, rfl⟩ := h.parentReads hpc hread
      have hfirst := h.messageFirst
      have hbuf := h.toChild
      have hans := h.toParent
      have hout := h.out
      rw [hpc] at hfirst hbuf hans hout
      refine ⟨?_, h.childHeld, hbuf, ?_, hfirst, fun _ => hanswered, h.buf, by simp, hout, by simp,
        by simp, h.alive.2⟩
      · rw [Pipes.skip_held, h.parentHeld, hpc]
        rfl
      · have hlen := length_answer_le msg
        simp only [Pipes.skip, Function.update_self, hans, hanswered, ParentPc.received]
        refine List.drop_of_length_le ?_
        simp only [SIZEOF_RESP, Bool.not_false, Bool.and_self, if_true]
        omega
  | @parentPrint _ resp hpc =>
      have hfirst := h.messageFirst
      have hbuf := h.toChild
      have hans := h.toParent
      have hout := h.out
      have hafter := h.answerFirst
      obtain rfl := h.resp resp hpc
      have hheld := h.parentHeld
      rw [hpc] at hfirst hbuf hans hout hafter hheld
      refine ⟨hheld, h.childHeld, hbuf, hans, hfirst, hafter, h.buf, by simp, ?_, by simp, by simp,
        h.alive.2⟩
      rw [hout, cstr_answer]
      rfl
  | parentCloseToParentRead hpc =>
      exact h.parentCloses hpc (by rintro (q | q) <;> cases q <;> rfl) rfl rfl rfl (by simp) (by simp)
        (by simp)
  | parentWaitpid hpc hexited =>
      have hfirst := h.messageFirst
      have hbuf := h.toChild
      have hans := h.toParent
      have hout := h.out
      have hafter := h.answerFirst
      have hheld := h.parentHeld
      rw [hpc] at hfirst hbuf hans hout hafter hheld
      exact ⟨hheld, h.childHeld, hbuf, hans, hfirst, hafter, h.buf, by simp, hout,
        fun _ => hexited.resolve_right h.alive.2, by simp, h.alive.2⟩
  | childCloseToChildWrite hpc =>
      exact h.childCloses hpc (by rintro (q | q) <;> cases q <;> rfl) rfl rfl (by simp) (by simp)
        (by simp)
  | childCloseToParentRead hpc =>
      exact h.childCloses hpc (by rintro (q | q) <;> cases q <;> rfl) rfl rfl (by simp) (by simp)
        (by simp)
  | childRead hpc hread =>
      obtain ⟨hwritten, rfl, rfl⟩ := h.childReads hpc hread
      have hbuf := h.toChild
      have hans := h.toParent
      have hafter := h.answerFirst
      have hheld := h.childHeld
      rw [hpc] at hbuf hans hafter hheld
      refine ⟨h.parentHeld, hheld, ?_, hans, fun _ => hwritten, hafter, ?_, h.resp, h.out, ?_,
        h.alive.1, by simp⟩
      · simp only [Pipes.skip, Function.update_self, hbuf, hwritten]
        rfl
      · intro bytes hbytes
        cases hbytes
        rfl
      · intro hdone
        have hexit := h.reaped hdone
        rw [hpc] at hexit
        cases hexit
  | @childWrite _ buf k hpc hwrite =>
      cases hwrite
      obtain rfl := h.buf buf hpc
      have hnot : s.parent.received = false := by
        by_contra hyes
        simpa [hpc, ChildPc.answered] using h.answerFirst (by simpa using hyes)
      have hfirst := h.messageFirst
      have hbuf := h.toChild
      have hans := h.toParent
      have hheld := h.childHeld
      rw [hpc] at hbuf hans hfirst hheld
      refine ⟨h.parentHeld, hheld, hbuf, ?_, hfirst, fun _ => rfl, by simp, h.resp, h.out, ?_,
        h.alive.1, by simp⟩
      · simp only [Pipes.put, Function.update_self, hans, hnot]
        rfl
      · intro hdone
        have hexit := h.reaped hdone
        rw [hpc] at hexit
        cases hexit
  | childBroken hpc hbroken =>
      have hnot : s.parent.received = false := by
        by_contra hyes
        simpa [hpc, ChildPc.answered] using h.answerFirst (by simpa using hyes)
      refine absurd ⟨.parent, ?_⟩ hbroken.2
      rw [h.parentHeld]
      exact ParentPc.holds_read hnot h.alive.1
  | childCloseToChildRead hpc =>
      exact h.childCloses hpc (by rintro (q | q) <;> cases q <;> rfl) rfl rfl (by simp) (by simp)
        (by simp)
  | childCloseToParentWrite hpc =>
      exact h.childCloses hpc (by rintro (q | q) <;> cases q <;> rfl) rfl rfl (by simp) (by simp)
        (by simp)

/-- **Run.** -/
theorem inv_of_reachable (h : Reachable (sectionPipe msg) s) : Inv msg s := by
  refine h.invariant ?_ fun who s s' hinv hstep => hinv.step hstep
  rintro s rfl
  refine ⟨rfl, rfl, rfl, rfl, by simp [afterFork, ChildPc.received],
    by simp [afterFork, ParentPc.received], by simp [afterFork], by simp [afterFork], rfl,
    by simp [afterFork], by simp [afterFork], by simp [afterFork]⟩

/-! ## Nobody waits for ever -/

/-- The steps that the parent still has to do. -/
def ParentPc.rank : ParentPc → ℕ
  | .closeToChildRead => 8
  | .closeToParentWrite => 7
  | .write => 6
  | .closeToChildWrite => 5
  | .read => 4
  | .print _ => 3
  | .closeToParentRead => 2
  | .waitpid => 1
  | .done => 0
  | .killed => 0

/-- The steps that the child still has to do. -/
def ChildPc.rank : ChildPc → ℕ
  | .closeToChildWrite => 6
  | .closeToParentRead => 5
  | .read => 4
  | .write _ => 3
  | .closeToChildRead => 2
  | .closeToParentWrite => 1
  | .exited => 0
  | .killed => 0

lemma rank_lt (hstep : Step msg who s s') :
    s'.parent.rank + s'.child.rank < s.parent.rank + s.child.rank := by
  cases hstep <;> simp_all [ParentPc.rank, ChildPc.rank, State.close]

/-- The child moves on, once the parent has closed its write end. -/
lemma Inv.child_moves (h : Inv msg s)
    (hclosed : s.parent.held (.w .toChild) = false) (hrun : s.child ≠ .exited) :
    ∃ s', Step msg .child s s' := by
  cases hpc : s.child with
  | closeToChildWrite => exact ⟨_, .childCloseToChildWrite hpc⟩
  | closeToParentRead => exact ⟨_, .childCloseToParentRead hpc⟩
  | read =>
      have hheld : s.pipes.held .child (.r .toChild) = true := by
        rw [h.childHeld, hpc]
        rfl
      -- even when the message is empty, since then nobody can write any more
      have hend : ¬ s.pipes.IsOpen (.w .toChild) := by
        rintro ⟨who, hwho⟩
        cases who with
        | parent => simp [h.parentHeld, hclosed] at hwho
        | child => simp [h.childHeld, hpc, ChildPc.held] at hwho
      obtain ⟨bytes, k, hread⟩ := Pipes.exists_read (SIZEOF_BUF - 1) hheld (Or.inr hend)
      exact ⟨_, .childRead hpc hread⟩
  | write buf =>
      refine ⟨_, .childWrite hpc (.all ?_ ?_ ⟨.parent, ?_⟩)⟩
      · rw [h.childHeld, hpc]
        rfl
      · obtain rfl := h.buf buf hpc
        have hlen := length_answer_le msg
        simp only [answer] at hlen
        unfold PIPE_BUF
        omega
      · rw [h.parentHeld]
        refine ParentPc.holds_read ?_ h.alive.1
        by_contra hyes
        simpa [hpc, ChildPc.answered] using h.answerFirst (by simpa using hyes)
  | closeToChildRead => exact ⟨_, .childCloseToChildRead hpc⟩
  | closeToParentWrite => exact ⟨_, .childCloseToParentWrite hpc⟩
  | exited => exact absurd hpc hrun
  | killed => exact absurd hpc h.alive.2

/-- **Somebody can move** until the parent is done. -/
theorem Inv.exists_step (h : Inv msg s) (hmsg : msg.length ≤ PIPE_BUF) (hdone : s.parent ≠ .done) :
    ∃ who s', Step msg who s s' := by
  cases hpc : s.parent with
  | closeToChildRead => exact ⟨_, _, .parentCloseToChildRead hpc⟩
  | closeToParentWrite => exact ⟨_, _, .parentCloseToParentWrite hpc⟩
  | write =>
      refine ⟨_, _, .parentWrite hpc (.all ?_ hmsg ⟨.child, ?_⟩)⟩
      · rw [h.parentHeld, hpc]
        rfl
      · rw [h.childHeld]
        refine ChildPc.holds_read ?_ h.alive.2
        by_contra hyes
        simpa [hpc, ParentPc.written] using h.messageFirst (by simpa using hyes)
  | closeToChildWrite => exact ⟨_, _, .parentCloseToChildWrite hpc⟩
  | read =>
      cases hanswered : s.child.answered with
      | true =>
          have hheld : s.pipes.held .parent (.r .toParent) = true := by
            rw [h.parentHeld, hpc]
            rfl
          obtain ⟨bytes, k, hread⟩ := Pipes.exists_read (SIZEOF_RESP - 1) hheld (Or.inl (by
            simp [h.toParent, hanswered, hpc, ParentPc.received, answer_ne_nil]))
          exact ⟨_, _, .parentRead hpc hread⟩
      | false =>
          obtain ⟨s', hstep⟩ := h.child_moves (by rw [hpc]; rfl) fun hexit => by
            simp [hexit, ChildPc.answered] at hanswered
          exact ⟨_, s', hstep⟩
  | print resp => exact ⟨_, _, .parentPrint hpc⟩
  | closeToParentRead => exact ⟨_, _, .parentCloseToParentRead hpc⟩
  | waitpid =>
      by_cases hexit : s.child = .exited
      · exact ⟨_, _, .parentWaitpid hpc (Or.inl hexit)⟩
      · obtain ⟨s', hstep⟩ := h.child_moves (by rw [hpc]; rfl) hexit
        exact ⟨_, s', hstep⟩
  | done => exact absurd hpc hdone
  | killed => exact absurd hpc h.alive.1

/-- **The answer comes back.**  In every interleaving nothing but the answer is printed, and nobody
is killed.  No interleaving goes on for ever, and one that cannot go on has printed the answer and
closed every descriptor. -/
theorem two_way_answers (msg : List UInt8) (hmsg : msg.length ≤ PIPE_BUF) {tr : List (Who × State)}
    (h : Trace (sectionPipe msg) tr s) :
    tr.length ≤ 14 ∧ (s.out = [] ∨ s.out = [answer msg]) ∧ s.parent ≠ .killed ∧ s.child ≠ .killed
      ∧ (Stuck (sectionPipe msg) s → s.parent = .done ∧ s.child = .exited ∧ s.out = [answer msg]
          ∧ ∀ who e, s.pipes.held who e = false) := by
  have hinv := inv_of_reachable h.reachable
  refine ⟨?_, ?_, hinv.alive.1, hinv.alive.2, fun hstuck => ?_⟩
  · rcases h.length_le_measure (μ := fun s => s.parent.rank + s.child.rank)
      fun _ _ _ _ hstep => rank_lt hstep with ⟨s₀, rfl, hle⟩
    simp only [afterFork, ParentPc.rank, ChildPc.rank] at hle
    omega
  · rw [hinv.out]
    split_ifs
    · exact Or.inr rfl
    · exact Or.inl rfl
  · have hdone : s.parent = .done := by
      by_contra hnot
      obtain ⟨who, s', hstep⟩ := hinv.exists_step hmsg hnot
      exact hstuck who s' hstep
    have hexit := hinv.reaped hdone
    refine ⟨hdone, hexit, by rw [hinv.out, hdone]; rfl, fun who e => ?_⟩
    cases who with
    | parent =>
        rw [hinv.parentHeld, hdone]
        rfl
    | child =>
        rw [hinv.childHeld, hexit]
        rfl

/-- The message of the program, `"ping"`. -/
theorem two_way_answers_ping :
    ([112, 105, 110, 103] : List UInt8).length ≤ PIPE_BUF
      ∧ ∀ (s : State) (tr : List (Who × State)), Trace (sectionPipe [112, 105, 110, 103]) tr s →
          Stuck (sectionPipe [112, 105, 110, 103]) s →
          s.out = [[101, 99, 104, 111, 58, 32, 112, 105, 110, 103]] := by
  have hsize : ([112, 105, 110, 103] : List UInt8).length ≤ PIPE_BUF := by decide
  refine ⟨hsize, fun s tr h hstuck => ?_⟩
  have hout := ((two_way_answers [112, 105, 110, 103] hsize h).2.2.2.2 hstuck).2.2.1
  exact hout

end CExercises.Processes
