import CExercises.StateMachine.Def
import Mathlib.Data.List.Infix

/-!
# The runs of the connection state machine

Whatever events arrive, those that are accepted make up a connection's life: `CONNECT`, `OPEN`, any
number of `SEND`s, `CLOSE` and `CLOSE`, cut short anywhere and possibly ended by an `ERROR`.

`Shape` says which words lead to which state.  It is preserved by every entry of the table
(`transitions_cases` lists them), so a run keeps it; and it determines the state.  Conversely each
word is accepted in full, event by event.
-/

namespace CExercises.StateMachine

open ConnState ConnEvent

variable {s t : ConnState} {e : ConnEvent} {w : List ConnEvent} {n : ℕ}

/-- A connection that is opened, used `n` times and closed. -/
def lifecycle (n : ℕ) : List ConnEvent :=
  CONNECT :: OPEN :: (List.replicate n SEND ++ [CLOSE, CLOSE])

/-- A life that is cut short, and perhaps ended by an error before its second `CLOSE`. -/
def IsWord (w : List ConnEvent) : Prop :=
  ∃ n p, p <+: lifecycle n ∧ (w = p ∨ (w = p ++ [ERROR] ∧ p.count CLOSE < 2))

/-- The state after a word. -/
def stateAfter (w : List ConnEvent) : ConnState :=
  if ERROR ∈ w ∨ w.count CLOSE = 2 then CLOSED
  else if w.count CLOSE = 1 then CLOSING
  else if OPEN ∈ w then CONNECTED
  else if CONNECT ∈ w then CONNECTING
  else IDLE

/-! ## The table -/

/-- **Every transition there is.** -/
lemma transitions_cases (hs : s ≠ COUNT) (ht : transitions s e ≠ NO_TRANS) :
    (s = IDLE ∧ e = CONNECT ∧ transitions s e = CONNECTING)
      ∨ (s = CONNECTING ∧ e = OPEN ∧ transitions s e = CONNECTED)
      ∨ (s = CONNECTED ∧ e = SEND ∧ transitions s e = CONNECTED)
      ∨ (s = CONNECTED ∧ e = CLOSE ∧ transitions s e = CLOSING)
      ∨ (s = CLOSING ∧ e = CLOSE ∧ transitions s e = CLOSED)
      ∨ (s ≠ CLOSED ∧ e = ERROR ∧ transitions s e = CLOSED) := by
  revert hs ht
  cases s <;> cases e <;> decide

lemma smStep_reject (hs : s ≠ COUNT) (ht : transitions s e = NO_TRANS) :
    ∃ line, smStep s e = .ok (s, 0, line) := by
  simp [smStep, hs, ht]

lemma smStep_accept (hs : s ≠ COUNT) (ht : transitions s e ≠ NO_TRANS) :
    ∃ line, smStep s e = .ok (transitions s e, 1, line) := by
  simp [smStep, hs, ht]

/-- A rejected event leaves the state alone. -/
lemma smStep_zero {line : String} (h : smStep s e = .ok (t, 0, line)) : t = s := by
  by_cases hs : s = COUNT
  · simp [smStep, hs] at h
  · by_cases ht : transitions s e = NO_TRANS
    · rcases smStep_reject hs ht with ⟨line', hstep⟩
      rw [hstep] at h
      cases h
      rfl
    · rcases smStep_accept hs ht with ⟨line', hstep⟩
      rw [hstep] at h
      cases h

/-! ## Words and states -/

/-- The words that lead to a state other than `CLOSED`. -/
inductive OpenShape : ConnState → List ConnEvent → Prop
  | idle : OpenShape IDLE []
  | connecting : OpenShape CONNECTING [CONNECT]
  | connected (n : ℕ) : OpenShape CONNECTED (CONNECT :: OPEN :: List.replicate n SEND)
  | closing (n : ℕ) : OpenShape CLOSING (CONNECT :: OPEN :: (List.replicate n SEND ++ [CLOSE]))

/-- The words that lead to a state. -/
inductive Shape : ConnState → List ConnEvent → Prop
  | live {s : ConnState} {w : List ConnEvent} : OpenShape s w → Shape s w
  | closed (n : ℕ) : Shape CLOSED (lifecycle n)
  | error {s : ConnState} {w : List ConnEvent} : OpenShape s w → Shape CLOSED (w ++ [ERROR])

lemma Shape.ne_count (h : Shape s w) : s ≠ COUNT := by
  cases h with
  | live h => cases h <;> simp
  | closed n => simp
  | error _ => simp

lemma Shape.live_of_ne (h : Shape s w) (hs : s ≠ CLOSED) : OpenShape s w := by
  cases h with
  | live h => exact h
  | closed n => exact absurd rfl hs
  | error _ => exact absurd rfl hs

/-- **Step.**  An accepted event extends the word by itself. -/
lemma Shape.step (h : Shape s w) (ht : transitions s e ≠ NO_TRANS) :
    Shape (transitions s e) (w ++ [e]) := by
  rcases transitions_cases h.ne_count ht with ⟨rfl, rfl, hn⟩ | ⟨rfl, rfl, hn⟩ | ⟨rfl, rfl, hn⟩
    | ⟨rfl, rfl, hn⟩ | ⟨rfl, rfl, hn⟩ | ⟨hs, rfl, hn⟩
  · rw [hn]
    cases h.live_of_ne (by simp)
    exact .live .connecting
  · rw [hn]
    cases h.live_of_ne (by simp)
    exact .live (.connected 0)
  · rw [hn]
    cases h.live_of_ne (by simp) with
    | connected n =>
        have hsend := OpenShape.connected (n + 1)
        rw [List.replicate_succ'] at hsend
        exact .live hsend
  · rw [hn]
    cases h.live_of_ne (by simp) with
    | connected n => exact .live (.closing n)
  · rw [hn]
    cases h.live_of_ne (by simp) with
    | closing n =>
        have hlife := Shape.closed n
        simpa [lifecycle] using hlife
  · rw [hn]
    exact .error (h.live_of_ne hs)

/-- **Run.**  The accepted events extend the word. -/
lemma Shape.feed : ∀ {s : ConnState} {w : List ConnEvent} (evts : List ConnEvent), Shape s w →
    ∃ t rets, feed s evts = .ok (t, rets) ∧ Shape t (w ++ accepted evts rets)
  | s, w, [], h => ⟨s, [], rfl, by simpa [accepted] using h⟩
  | s, w, e :: evts, h => by
      by_cases ht : transitions s e = NO_TRANS
      · rcases smStep_reject h.ne_count ht with ⟨line, hstep⟩
        rcases Shape.feed evts h with ⟨t, rets, hrun, hshape⟩
        refine ⟨t, (0, line) :: rets, runCalls_cons_ok hstep hrun, ?_⟩
        simpa [accepted] using hshape
      · rcases smStep_accept h.ne_count ht with ⟨line, hstep⟩
        rcases Shape.feed evts (h.step ht) with ⟨t, rets, hrun, hshape⟩
        refine ⟨t, (1, line) :: rets, runCalls_cons_ok hstep hrun, ?_⟩
        simpa [accepted] using hshape

/-- What leads to a state that is not `CLOSED` is a prefix with at most one `CLOSE`. -/
lemma OpenShape.cut_short (h : OpenShape s w) : (∃ n, w <+: lifecycle n) ∧ w.count CLOSE < 2 := by
  cases h with
  | idle => exact ⟨⟨0, List.nil_prefix⟩, by simp⟩
  | connecting => exact ⟨⟨0, _, rfl⟩, by simp⟩
  | connected n => exact ⟨⟨n, [CLOSE, CLOSE], by simp [lifecycle]⟩, by simp [List.count_replicate]⟩
  | closing n => exact ⟨⟨n, [CLOSE], by simp [lifecycle]⟩, by simp [List.count_replicate]⟩

lemma Shape.isWord (h : Shape s w) : IsWord w := by
  cases h with
  | live h =>
      rcases h.cut_short with ⟨⟨n, hp⟩, _⟩
      exact ⟨n, w, hp, Or.inl rfl⟩
  | closed n => exact ⟨n, lifecycle n, List.prefix_rfl, Or.inl rfl⟩
  | @error s w h =>
      rcases h.cut_short with ⟨⟨n, hp⟩, hc⟩
      exact ⟨n, w, hp, Or.inr ⟨rfl, hc⟩⟩

/-- The word determines the state. -/
lemma Shape.stateAfter_eq (h : Shape s w) : stateAfter w = s := by
  cases h with
  | live h => cases h <;> simp [stateAfter, List.count_replicate]
  | closed n => simp [stateAfter, lifecycle, List.count_replicate]
  | error h => simp [stateAfter]

/-! ## Every word is accepted -/

/-- A prefix of some repetitions and a tail. -/
lemma prefix_replicate_append {a : ConnEvent} {p q : List ConnEvent} :
    ∀ {n : ℕ}, p <+: List.replicate n a ++ q →
      (∃ m, p = List.replicate m a) ∨ ∃ r, r <+: q ∧ p = List.replicate n a ++ r
  | 0, h => Or.inr ⟨p, by simpa using h, by simp⟩
  | n + 1, h => by
      rw [List.replicate_succ, List.cons_append, List.prefix_cons_iff] at h
      rcases h with rfl | ⟨p', rfl, hp'⟩
      · exact Or.inl ⟨0, rfl⟩
      · rcases prefix_replicate_append hp' with ⟨m, rfl⟩ | ⟨r, hr, rfl⟩
        · exact Or.inl ⟨m + 1, rfl⟩
        · exact Or.inr ⟨r, hr, rfl⟩

/-- The prefixes of a life. -/
lemma openShape_of_cut {p : List ConnEvent} (h : p <+: lifecycle n) :
    p = lifecycle n ∨ ∃ s, OpenShape s p := by
  rw [lifecycle, List.prefix_cons_iff] at h
  rcases h with rfl | ⟨p, rfl, h⟩
  · exact Or.inr ⟨_, .idle⟩
  · rw [List.prefix_cons_iff] at h
    rcases h with rfl | ⟨p, rfl, h⟩
    · exact Or.inr ⟨_, .connecting⟩
    · rcases prefix_replicate_append h with ⟨m, rfl⟩ | ⟨r, hr, rfl⟩
      · exact Or.inr ⟨_, .connected m⟩
      · simp only [List.prefix_cons_iff, List.prefix_nil] at hr
        rcases hr with rfl | ⟨r, rfl, rfl | ⟨r, rfl, rfl⟩⟩
        · exact Or.inr ⟨_, by simpa using OpenShape.connected n⟩
        · exact Or.inr ⟨_, .closing n⟩
        · exact Or.inl rfl

lemma IsWord.shape (h : IsWord w) : ∃ s, Shape s w := by
  rcases h with ⟨n, p, hp, rfl | ⟨rfl, hc⟩⟩
  · rcases openShape_of_cut hp with rfl | ⟨s, hs⟩
    · exact ⟨_, .closed n⟩
    · exact ⟨s, .live hs⟩
  · rcases openShape_of_cut hp with rfl | ⟨s, hs⟩
    · simp [lifecycle, List.count_replicate] at hc
    · exact ⟨_, .error hs⟩

/-- The word is accepted in full, from `s` to `t`. -/
def AcceptsAll (s : ConnState) (w : List ConnEvent) (t : ConnState) : Prop :=
  ∃ rets, feed s w = .ok (t, rets) ∧ accepted w rets = w

lemma AcceptsAll.cons (hs : s ≠ COUNT) (ht : transitions s e ≠ NO_TRANS)
    (h : AcceptsAll (transitions s e) w t) : AcceptsAll s (e :: w) t := by
  rcases h with ⟨rets, hrun, hall⟩
  rcases smStep_accept hs ht with ⟨line, hstep⟩
  refine ⟨(1, line) :: rets, runCalls_cons_ok hstep hrun, ?_⟩
  unfold accepted at hall ⊢
  simpa using hall

lemma AcceptsAll.nil (s : ConnState) : AcceptsAll s [] s := ⟨[], rfl, rfl⟩

/-- `SEND` may be repeated. -/
lemma AcceptsAll.sends (h : AcceptsAll CONNECTED w t) :
    ∀ n, AcceptsAll CONNECTED (List.replicate n SEND ++ w) t
  | 0 => h
  | n + 1 => .cons (by decide) (by decide) (AcceptsAll.sends h n)

/-- From the start to an open connection. -/
lemma AcceptsAll.session (h : AcceptsAll CONNECTED w t) (n : ℕ) :
    AcceptsAll IDLE (CONNECT :: OPEN :: (List.replicate n SEND ++ w)) t :=
  .cons (by decide) (by decide) (.cons (by decide) (by decide) (h.sends n))

lemma OpenShape.acceptsAll (h : OpenShape s w) {u : List ConnEvent} (hu : AcceptsAll s u t) :
    AcceptsAll IDLE (w ++ u) t := by
  cases h with
  | idle => exact hu
  | connecting => exact .cons (by decide) (by decide) hu
  | connected n => exact hu.session n
  | closing n =>
      have hclose := AcceptsAll.cons (s := CONNECTED) (e := CLOSE) (by decide) (by decide) hu
      simpa using hclose.session n

lemma Shape.acceptsAll (h : Shape s w) : AcceptsAll IDLE w s := by
  cases h with
  | live h => simpa using h.acceptsAll (AcceptsAll.nil s)
  | closed n =>
      exact (AcceptsAll.cons (s := CONNECTED) (e := CLOSE) (by decide) (by decide)
        (AcceptsAll.cons (s := CLOSING) (e := CLOSE) (by decide) (by decide)
          (AcceptsAll.nil CLOSED))).session n
  | @error s w h =>
      refine h.acceptsAll (AcceptsAll.cons ?_ ?_ ?_)
      all_goals cases h <;> first | decide | exact AcceptsAll.nil CLOSED

/-- **The language of the machine.**  A rejected event changes nothing; in every run the accepted
events form a word and the word determines the state, which is `CLOSED` exactly after the second
`CLOSE` or an `ERROR`; and every word is accepted in full when it is fed alone. -/
theorem sm_trace_language :
    (∀ s e t line, smStep s e = .ok (t, 0, line) → t = s)
    ∧ (∀ evts, ∃ t rets, feed IDLE evts = .ok (t, rets)
        ∧ IsWord (accepted evts rets) ∧ t = stateAfter (accepted evts rets)
        ∧ (t = CLOSED ↔ (accepted evts rets).count CLOSE = 2 ∨ ERROR ∈ accepted evts rets))
    ∧ ∀ w, IsWord w → ∃ rets, feed IDLE w = .ok (stateAfter w, rets) ∧ accepted w rets = w := by
  refine ⟨fun s e t line h => smStep_zero h, fun evts => ?_, fun w hw => ?_⟩
  · rcases Shape.feed evts (.live .idle) with ⟨t, rets, hrun, hshape⟩
    rw [List.nil_append] at hshape
    refine ⟨t, rets, hrun, hshape.isWord, hshape.stateAfter_eq.symm, ?_⟩
    rw [← hshape.stateAfter_eq, stateAfter]
    split_ifs with hclosed <;> simp_all [or_comm]
  · rcases hw.shape with ⟨s, hs⟩
    rw [hs.stateAfter_eq]
    exact hs.acceptsAll

/-- The sequence `main` feeds: two messages and an orderly close. -/
theorem sm_trace_language_demo :
    IsWord (lifecycle 2)
      ∧ ∃ rets, feed IDLE (lifecycle 2) = .ok (CLOSED, rets)
        ∧ accepted (lifecycle 2) rets = lifecycle 2 := by
  have hword : IsWord (lifecycle 2) := ⟨2, lifecycle 2, List.prefix_rfl, Or.inl rfl⟩
  exact ⟨hword, sm_trace_language.2.2 (lifecycle 2) hword⟩

end CExercises.StateMachine
