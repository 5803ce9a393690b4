import CExercises.IoMux.ReadersDef
import Mathlib.Data.List.Nodup

/-!
# Do the three readers agree?

As long as nobody has read from a pipe, its child is in one of three phases: it has not written, it
has written, it has also closed.  A pipe that is ready stays ready until it is read, and then the
whole message is in it.  So a read after a report gets the first 31 bytes of the message, whatever
happened in between.

Each loop is related to the set of ends that are `done`: select keeps it in two flags, poll in two
slots and a counter, epoll in the interest list and a counter.  A wakeup of select and of epoll
finishes at least one end.  A wakeup of poll need not: it looks for data, and the end of an empty
file is a hang-up without data.
-/

namespace CExercises.IoMux

variable {msg : End → Message} {sched : Schedule} {w : World} {e : End}

/-! ## The pipes -/

/-- How far the child of an end has come, as long as the end has not been read. -/
inductive Phase (msg : End → Message) (w : World) (e : End) : Prop
  | fresh : w.todo.filter (fun c => c.fd = e) = [.write e, .close e] → w.pipe e = ⟨[], true⟩ →
      Phase msg w e
  | written : w.todo.filter (fun c => c.fd = e) = [.close e] → w.pipe e = ⟨(msg e).bytes, true⟩ →
      Phase msg w e
  | closed : w.todo.filter (fun c => c.fd = e) = [] → w.pipe e = ⟨(msg e).bytes, false⟩ →
      Phase msg w e

lemma todo_childStep : (childStep msg w).todo = w.todo.tail := by
  unfold childStep
  split <;> simp_all

/-- When the children have finished, nothing happens any more. -/
lemma childStep_nil (htodo : w.todo = []) : childStep msg w = w := by simp [childStep, htodo]

lemma pipe_write {e' : End} {rest : List ChildStep} (htodo : w.todo = .write e' :: rest) :
    (childStep msg w).pipe
      = Function.update w.pipe e' ⟨(w.pipe e').buffer ++ (msg e').bytes, (w.pipe e').writer⟩ := by
  simp [childStep, htodo]

lemma pipe_close {e' : End} {rest : List ChildStep} (htodo : w.todo = .close e' :: rest) :
    (childStep msg w).pipe = Function.update w.pipe e' ⟨(w.pipe e').buffer, false⟩ := by
  simp [childStep, htodo]

/-- A step of the other child changes nothing here. -/
lemma childStep_of_ne (msg : End → Message) {c : ChildStep} {rest : List ChildStep}
    (htodo : w.todo = c :: rest) (hc : c.fd ≠ e) :
    (childStep msg w).pipe e = w.pipe e
      ∧ (childStep msg w).todo.filter (fun c => c.fd = e) = w.todo.filter fun c => c.fd = e := by
  constructor
  · cases c with
    | write e' =>
        rw [pipe_write htodo]
        exact Function.update_of_ne (Ne.symm hc) _ _
    | close e' =>
        rw [pipe_close htodo]
        exact Function.update_of_ne (Ne.symm hc) _ _
  · rw [todo_childStep, htodo, List.tail_cons, List.filter_cons_of_neg (by simpa using hc)]

/-- A step of this child is the next of its program. -/
lemma childStep_of_eq (msg : End → Message) {c : ChildStep} {rest : List ChildStep}
    (htodo : w.todo = c :: rest) (hc : c.fd = e) :
    w.todo.filter (fun c => c.fd = e) = c :: (childStep msg w).todo.filter fun c => c.fd = e := by
  rw [todo_childStep, htodo, List.tail_cons, List.filter_cons_of_pos (by simpa using hc)]

/-- The phase of an end is seen in its own pipe and its own child. -/
lemma Phase.congr {w' : World} (h : Phase msg w e) (hpipe' : w'.pipe e = w.pipe e)
    (hprog' : w'.todo.filter (fun c => c.fd = e) = w.todo.filter fun c => c.fd = e) :
    Phase msg w' e := by
  cases h with
  | fresh hprog hpipe => exact .fresh (hprog'.trans hprog) (hpipe'.trans hpipe)
  | written hprog hpipe => exact .written (hprog'.trans hprog) (hpipe'.trans hpipe)
  | closed hprog hpipe => exact .closed (hprog'.trans hprog) (hpipe'.trans hpipe)

/-- **Step of a child.** -/
lemma Phase.step (h : Phase msg w e) : Phase msg (childStep msg w) e := by
  cases htodo : w.todo with
  | nil =>
      rw [childStep_nil htodo]
      exact h
  | cons c rest =>
      by_cases hc : c.fd = e
      · have hnext := childStep_of_eq msg htodo hc
        cases h with
        | fresh hprog hpipe =>
            rw [hprog] at hnext
            rcases List.cons.inj hnext with ⟨rfl, hrest⟩
            refine .written hrest.symm ?_
            rw [pipe_write htodo, Function.update_self, hpipe]
            rfl
        | written hprog hpipe =>
            rw [hprog] at hnext
            rcases List.cons.inj hnext with ⟨rfl, hrest⟩
            refine .closed hrest.symm ?_
            rw [pipe_close htodo, Function.update_self, hpipe]
        | closed hprog hpipe =>
            rw [hprog] at hnext
            cases hnext
      · rcases childStep_of_ne msg htodo hc with ⟨hpipe, hprog⟩
        exact h.congr hpipe hprog

/-- What is ready stays ready. -/
lemma isReady_step (h : isReady w e = true) : isReady (childStep msg w) e = true := by
  cases htodo : w.todo with
  | nil =>
      rw [childStep_nil htodo]
      exact h
  | cons c rest =>
      by_cases hc : c.fd = e
      · subst hc
        cases c with
        | write e' =>
            simp only [isReady, ready, ChildStep.fd, pipe_write htodo, Function.update_self] at h ⊢
            cases hbuf : (w.pipe e').buffer with
            | nil => simp_all
            | cons b bs => simp
        | close e' => simp [isReady, ready, ChildStep.fd, pipe_close htodo]
      · simpa [isReady, ready, (childStep_of_ne msg htodo hc).1] using h

/-- A pipe that is ready holds its message. -/
lemma Phase.buffer_eq (h : Phase msg w e) (hr : isReady w e = true) :
    (w.pipe e).buffer = (msg e).bytes := by
  cases h with
  | fresh _ hpipe => simp [isReady, ready, hpipe] at hr
  | written _ hpipe => rw [hpipe]
  | closed _ hpipe => rw [hpipe]

/-- When the children have finished, every pipe is ready. -/
lemma Phase.isReady_of_nil (h : Phase msg w e) (htodo : w.todo = []) : isReady w e = true := by
  cases h with
  | fresh hprog _ => simp [htodo] at hprog
  | written hprog _ => simp [htodo] at hprog
  | closed _ hpipe => simp [isReady, ready, hpipe]

/-! ## Sleeping -/

section

variable {P : World → Prop} {p : World → Bool}

/-- Whatever the children's steps keep, time keeps. -/
lemma pass_keeps (hstep : ∀ w, P w → P (childStep msg w))
    (hcalls : ∀ w n, P w → P { w with calls := n }) (h : P w) : P (pass msg sched w) :=
  Function.Iterate.rec P (hcalls w _ h) hstep _

/-- Nobody sleeps who need not. -/
lemma block_of_true (h : p w = true) : ∀ n, block msg p n w = .ok w
  | 0 => if_pos h
  | _ + 1 => if_pos h

/-- A sleep ends if what is waited for is true when the children have finished. -/
lemma block_spec (hstep : ∀ w, P w → P (childStep msg w))
    (hend : ∀ w, P w → w.todo = [] → p w = true) :
    ∀ (n : ℕ) (w : World), w.todo.length = n → P w →
      ∃ w', block msg p n w = .ok w' ∧ P w' ∧ p w' = true := by
  intro n
  induction n with
  | zero =>
      intro w hn h
      have hp := hend w h (List.length_eq_zero_iff.mp hn)
      exact ⟨w, if_pos hp, h, hp⟩
  | succ n ih =>
      intro w hn h
      by_cases hp : p w = true
      · exact ⟨w, if_pos hp, h, hp⟩
      · have hrest : (childStep msg w).todo.length = n := by
          rw [todo_childStep, List.length_tail, hn]
          rfl
        rcases ih (childStep msg w) hrest (hstep w h) with ⟨w', hrun, hw'⟩
        exact ⟨w', by rw [block, if_neg hp, hrun], hw'⟩

end

lemma Phase.pass (h : Phase msg w e) (sched : Schedule) : Phase msg (pass msg sched w) e :=
  pass_keeps (P := fun w => Phase msg w e) (fun _ hw => hw.step) (fun _ _ hw => hw.congr rfl rfl) h

lemma isReady_pass (msg : End → Message) (sched : Schedule) (h : isReady w e = true) :
    isReady (pass msg sched w) e = true :=
  pass_keeps (P := fun w => isReady w e = true) (fun _ hw => isReady_step hw) (fun _ _ hw => hw) h

/-! ## What the loops have done -/

variable {done : End → Bool} {r : Run World}

/-- The ends in `done` have been read once; the others are untouched. -/
structure Inv (msg : End → Message) (r : Run World) (done : End → Bool) : Prop where
  phase : ∀ e, done e = false → Phase msg r.kernel e
  unread : ∀ e, done e = false → strings e r.log = []
  got : ∀ e, done e = true → strings e r.log = [(msg e).bytes.take 31]

/-- The ends that are left, as each of the three loops passes them to its wait. -/
def left (done : End → Bool) : List End := [End.ra, End.rb].filter fun e => !done e

lemma mem_left : e ∈ left done ↔ done e = false := by
  cases e <;> simp [left]

lemma nodup_left : (left done).Nodup := List.Nodup.filter _ (by simp)

/-- The reports still to be handled are of ends that are ready. -/
def Pending (evs : List (End × Ready)) (r : Run World) (done : End → Bool) : Prop :=
  ∀ ev ∈ evs, done ev.1 = false → isReady r.kernel ev.1 = true

/-- **A wait** comes back, with some of the ends that are left, and tells the truth about them. -/
lemma wait_spec (sched : Schedule) (h : Inv msg r done) (hleft : ∃ e, done e = false) :
    ∃ evs w, (pipes msg sched).wait (left done) r.kernel = .ok (.ready evs, w)
      ∧ Inv msg ⟨w, r.log⟩ done ∧ Pending evs ⟨w, r.log⟩ done
      ∧ (∃ ev, ev ∈ evs) ∧ (evs.map Prod.fst).Nodup
      ∧ ∀ ev ∈ evs, done ev.1 = false ∧ isReady w ev.1 = true ∧ ev.2 = ready w ev.1 := by
  rcases hleft with ⟨e₀, he₀⟩
  -- asleep until one of them is ready
  rcases block_spec (p := fun w => (left done).any (isReady w))
    (P := fun w => ∀ e, done e = false → Phase msg w e) (fun w hw e he => (hw e he).step)
    (fun w hw htodo => List.any_eq_true.mpr
      ⟨e₀, mem_left.mpr he₀, (hw e₀ he₀).isReady_of_nil htodo⟩)
    _ (pass msg sched r.kernel) rfl (fun e he => (h.phase e he).pass sched) with
    ⟨w₁, hblock, hphase, hready⟩
  rcases List.any_eq_true.mp hready with ⟨e₁, he₁, hr₁⟩
  set w₂ := pass msg sched w₁ with hw₂
  set evs := ((left done).filter (isReady w₂)).map fun e => (e, ready w₂ e) with hevs
  have hmem : ∀ ev ∈ evs, done ev.1 = false ∧ isReady w₂ ev.1 = true ∧ ev.2 = ready w₂ ev.1 := by
    intro ev hev
    rcases List.mem_map.mp hev with ⟨e, he, rfl⟩
    rcases List.mem_filter.mp he with ⟨hel, her⟩
    exact ⟨mem_left.mp hel, her, rfl⟩
  have hsome : (e₁, ready w₂ e₁) ∈ evs :=
    List.mem_map.mpr ⟨e₁, List.mem_filter.mpr ⟨he₁, isReady_pass msg sched hr₁⟩, rfl⟩
  have hnodup : (evs.map Prod.fst).Nodup := by
    have hfst : Prod.fst ∘ (fun e => (e, ready w₂ e)) = id := rfl
    rw [hevs, List.map_map, hfst, List.map_id]
    exact nodup_left.filter _
  have hinv : Inv msg ⟨w₂, r.log⟩ done :=
    ⟨fun e he => (hphase e he).pass sched, h.unread, h.got⟩
  -- the order of the report does not matter
  refine ⟨if sched.flip w₂.calls then evs.reverse else evs, w₂, ?_, hinv, ?_, ?_, ?_, ?_⟩
  · simp only [pipes, hblock, ok_bind, ← hw₂, ← hevs, pure_eq_ok]
  · intro ev hev _
    split_ifs at hev
    · exact (hmem ev (List.mem_reverse.mp hev)).2.1
    · exact (hmem ev hev).2.1
  · split_ifs
    · exact ⟨_, List.mem_reverse.mpr hsome⟩
    · exact ⟨_, hsome⟩
  · split_ifs
    · rw [List.map_reverse]
      exact List.nodup_reverse.mpr hnodup
    · exact hnodup
  · intro ev hev
    split_ifs at hev
    · exact hmem ev (List.mem_reverse.mp hev)
    · exact hmem ev hev

/-- The buffer starts out zeroed and the message has no zero byte, so what is printed is what was
read. -/
lemma printed_eq (m : Message) (n k : ℕ) :
    ((m.bytes.take n) ++ List.replicate k 0).takeWhile (· ≠ 0) = m.bytes.take n := by
  have hne : ∀ b ∈ m.bytes.take n, decide (b ≠ 0) = true := by
    intro b hb
    simpa using m.text.nulFree b (List.mem_of_mem_take hb)
  rw [List.takeWhile_append_of_pos hne]
  cases k <;> simp [List.replicate_succ]

lemma strings_append (log log' : List Action) :
    strings e (log ++ log') = strings e log ++ strings e log' := List.filterMap_append

/-- One more end is done; what is not done now was not done before. -/
lemma undone_before {e' : End} (h : Function.update done e true e' = false) :
    e' ≠ e ∧ done e' = false := by
  have hne : e' ≠ e := fun he => by simp [he] at h
  rw [Function.update_of_ne hne] at h
  exact ⟨hne, h⟩

/-- **A read** of an end that is ready gets the beginning of its message. -/
lemma readString_spec (sched : Schedule) (h : Inv msg r done) (he : done e = false)
    (hr : isReady r.kernel e = true) :
    ∃ r', readString (pipes msg sched) r e = .ok r' ∧ Inv msg r' (Function.update done e true)
      ∧ ∀ e', e' ≠ e → isReady r.kernel e' = true → isReady r'.kernel e' = true := by
  set w := pass msg sched r.kernel with hw
  have hready : isReady w e = true := isReady_pass msg sched hr
  have hbuf : (w.pipe e).buffer = (msg e).bytes := ((h.phase e he).pass sched).buffer_eq hready
  have hother : ∀ e', e' ≠ e → (consume w e 31).pipe e' = w.pipe e' := fun e' hne =>
    Function.update_of_ne hne _ _
  have hstr : ∀ e', e' ≠ e → strings e' (r.log ++ [.got e ((msg e).bytes.take 31)])
      = strings e' r.log := by
    intro e' hne
    simp [strings, Ne.symm hne]
  refine ⟨⟨consume w e 31, r.log ++ [.got e ((msg e).bytes.take 31)]⟩, ?_, ⟨?_, ?_, ?_⟩, ?_⟩
  · simp only [readString, pipes, ← hw, block_of_true (p := fun w => isReady w e) hready, hbuf,
      ok_bind, pure_eq_ok, printed_eq]
  · intro e' he'
    rcases undone_before he' with ⟨hne, hold⟩
    exact ((h.phase e' hold).pass sched).congr (hother e' hne) rfl
  · intro e' he'
    rcases undone_before he' with ⟨hne, hold⟩
    exact (hstr e' hne).trans (h.unread e' hold)
  · intro e' he'
    by_cases hne : e' = e
    · subst hne
      rw [strings_append, h.unread e' he]
      simp [strings]
    · rw [Function.update_of_ne hne] at he'
      exact (hstr e' hne).trans (h.got e' he')
  · intro e' hne hr'
    have hpass := isReady_pass msg sched hr'
    simpa [isReady, ready, hother e' hne] using hpass

/-- The read is followed by a close. -/
lemma readAndClose_spec (sched : Schedule) (h : Inv msg r done) (he : done e = false)
    (hr : isReady r.kernel e = true) :
    ∃ r', readAndClose (pipes msg sched) r e = .ok r' ∧ Inv msg r' (Function.update done e true)
      ∧ ∀ evs, Pending evs r done → Pending evs r' (Function.update done e true) := by
  rcases readString_spec sched h he hr with ⟨r', hrun, hinv, hkeep⟩
  have hstr : ∀ e', strings e' (closeEnd r' e).log = strings e' r'.log := fun e' => by
    simp [closeEnd, strings]
  refine ⟨closeEnd r' e, by simp [readAndClose, hrun], ⟨hinv.phase, ?_, ?_⟩, ?_⟩
  · exact fun e' he' => (hstr e').trans (hinv.unread e' he')
  · exact fun e' he' => (hstr e').trans (hinv.got e' he')
  · intro evs hp ev hev hdone
    rcases undone_before hdone with ⟨hne, hold⟩
    exact hkeep ev.1 hne (hp ev hev hold)

/-- How many ends are left. -/
def undone (done : End → Bool) : ℕ := (left done).length

lemma undone_lt {done' : End → Bool} (hmono : ∀ e, done e = true → done' e = true)
    (hnew : ∃ e, done e = false ∧ done' e = true) : undone done' < undone done := by
  have hsub : List.Sublist (left done') (left done) := by
    refine List.monotone_filter_right _ fun e he => ?_
    cases hd : done e with
    | false => rfl
    | true => simp [hmono e hd] at he
  rcases hnew with ⟨e, he, he'⟩
  refine Nat.lt_of_le_of_ne hsub.length_le fun heq => ?_
  have hmem := mem_left.mpr he
  rw [← hsub.eq_of_length heq, mem_left, he'] at hmem
  cases hmem

lemma undone_eq_zero (h : undone done = 0) : done = fun _ => true := by
  have hnil : left done = [] := List.length_eq_zero_iff.mp h
  funext e
  by_contra he
  have hmem := mem_left.mpr (Bool.not_eq_true _ ▸ he)
  rw [hnil] at hmem
  cases hmem

lemma exists_left (h : undone done ≠ 0) : ∃ e, done e = false := by
  rcases List.exists_mem_of_length_pos (Nat.pos_of_ne_zero h) with ⟨e, he⟩
  exact ⟨e, mem_left.mp he⟩

/-! ### select -/

lemma selectEnd_spec (sched : Schedule) {evs : List (End × Ready)} (h : Inv msg r done)
    (hp : Pending evs r done) (e : End) :
    ∃ r', selectEnd (pipes msg sched) evs e (done e) r = .ok (done e || fdIsSet e evs, r')
      ∧ Inv msg r' (Function.update done e (done e || fdIsSet e evs))
      ∧ Pending evs r' (Function.update done e (done e || fdIsSet e evs)) := by
  cases he : done e with
  | true =>
      have hsame : Function.update done e true = done := by rw [← he, Function.update_eq_self]
      refine ⟨r, rfl, ?_, ?_⟩
      · simpa [hsame] using h
      · simpa [hsame] using hp
  | false =>
      cases hset : fdIsSet e evs with
      | false =>
          have hsame : Function.update done e false = done := by rw [← he, Function.update_eq_self]
          refine ⟨r, by simp [selectEnd, hset], ?_, ?_⟩
          · simpa [hsame] using h
          · simpa [hsame] using hp
      | true =>
          have hready : isReady r.kernel e = true := by
            rcases List.any_eq_true.mp hset with ⟨ev, hev, hbits⟩
            simp only [Bool.and_eq_true, decide_eq_true_eq] at hbits
            rw [← hbits.1]
            exact hp ev hev (hbits.1 ▸ he)
          rcases readAndClose_spec sched h he hready with ⟨r', hrun, hinv, hkeep⟩
          refine ⟨r', by simp [selectEnd, hset, hrun], ?_, ?_⟩
          · simpa using hinv
          · simpa using hkeep evs hp

lemma left_of_flags (done : End → Bool) :
    (if done .ra then [] else [End.ra]) ++ (if done .rb then [] else [End.rb]) = left done := by
  cases hra : done .ra <;> cases hrb : done .rb <;> simp [left, hra, hrb]

lemma fdIsSet_of_mem {evs : List (End × Ready)} {ev : End × Ready} (hev : ev ∈ evs)
    (hr : isReady w ev.1 = true) (hev' : ev.2 = ready w ev.1) : fdIsSet ev.1 evs = true := by
  refine List.any_eq_true.mpr ⟨ev, hev, ?_⟩
  simpa [hev', isReady] using hr

/-- **select** reads both ends, one or two at each wakeup. -/
lemma selectLoop_spec (sched : Schedule) (n : ℕ) : ∀ (done : End → Bool) (r : Run World),
    undone done = n → Inv msg r done →
    ∃ fuel r', selectLoop (pipes msg sched) fuel (done .ra) (done .rb) r = .ok (true, true, r')
      ∧ Inv msg r' fun _ => true := by
  induction n using Nat.strongRecOn with
  | ind n ih =>
      intro done r hn h
      by_cases hzero : undone done = 0
      · have hall := undone_eq_zero hzero
        subst hall
        exact ⟨1, r, rfl, h⟩
      · rcases wait_spec sched h (exists_left hzero) with
          ⟨evs, w, hwait, hinv, hpend, ⟨ev, hev⟩, _, htrue⟩
        rcases selectEnd_spec sched hinv hpend .ra with ⟨r₁, hrun₁, hinv₁, hpend₁⟩
        rcases selectEnd_spec sched hinv₁ hpend₁ .rb with ⟨r₂, hrun₂, hinv₂, _⟩
        set done' : End → Bool := fun e => done e || fdIsSet e evs with hdone'
        have hsame : Function.update (Function.update done .ra (done .ra || fdIsSet .ra evs)) .rb
            (Function.update done .ra (done .ra || fdIsSet .ra evs) .rb || fdIsSet .rb evs)
            = done' := by
          funext e
          cases e <;> simp [hdone']
        rw [hsame] at hinv₂
        have hless : undone done' < undone done := by
          refine undone_lt (fun e he => by simp [hdone', he]) ⟨ev.1, (htrue ev hev).1, ?_⟩
          simp [hdone', fdIsSet_of_mem hev (htrue ev hev).2.1 (htrue ev hev).2.2]
        rcases ih (undone done') (hn ▸ hless) done' r₂ rfl hinv₂ with ⟨fuel, r', hrun, hfin⟩
        have hcond : (!done .ra || !done .rb) = true := by
          rcases exists_left hzero with ⟨e, he⟩
          cases e <;> simp [he]
        simp only [Function.update_of_ne (show End.rb ≠ End.ra by simp)] at hrun₂
        refine ⟨fuel + 1, r', ?_, hfin⟩
        rw [selectLoop, if_pos hcond, left_of_flags]
        simp only [hwait, ok_bind, hrun₁, hrun₂]
        exact hrun

/-! ### epoll -/

lemma left_update (done : End → Bool) (e : End) :
    (left done).filter (· ≠ e) = left (Function.update done e true) := by
  unfold left
  rw [List.filter_filter]
  refine List.filter_congr fun x _ => ?_
  by_cases hx : x = e
  · simp [hx]
  · simp [hx]

lemma undone_update (he : done e = false) :
    ((undone done : ℕ) : ℤ) - 1 = undone (Function.update done e true) := by
  cases e <;> cases hra : done .ra <;> cases hrb : done .rb <;> simp_all [undone, left]

/-- The read and the close of the loop are those of `readAndClose`. -/
lemma readString_of_readAndClose {kern : Kernel World} {r' : Run World}
    (h : readAndClose kern r e = .ok r') :
    ∃ r₀, readString kern r e = .ok r₀ ∧ closeEnd r₀ e = r' := by
  unfold readAndClose at h
  cases hread : readString kern r e with
  | error x =>
      rw [hread] at h
      cases h
  | ok r₀ =>
      rw [hread] at h
      cases h
      exact ⟨r₀, rfl, rfl⟩

/-- The events of one wakeup are handled one after the other. -/
lemma epollEvents_spec (sched : Schedule) : ∀ (evs : List (End × Ready)) (done : End → Bool)
    (r : Run World), Inv msg r done → Pending evs r done → (evs.map Prod.fst).Nodup →
    (∀ ev ∈ evs, done ev.1 = false) →
    ∃ done' r', epollEvents (pipes msg sched) evs (left done) (undone done) r
        = .ok (left done', (undone done' : ℤ), r')
      ∧ Inv msg r' done' ∧ (∀ e, done e = true → done' e = true)
      ∧ ∀ ev ∈ evs, done' ev.1 = true := by
  intro evs
  induction evs with
  | nil =>
      intro done r h _ _ _
      exact ⟨done, r, rfl, h, fun _ he => he, by simp⟩
  | cons ev evs ih =>
      intro done r h hp hnd hun
      rw [List.map_cons, List.nodup_cons] at hnd
      have he := hun ev List.mem_cons_self
      rcases readAndClose_spec sched h he (hp ev List.mem_cons_self he) with
        ⟨r₁, hrun₁, hinv₁, hkeep⟩
      have hother : ∀ ev' ∈ evs, ev'.1 ≠ ev.1 := fun ev' hev' heq =>
        hnd.1 (heq ▸ List.mem_map_of_mem hev')
      rcases ih (Function.update done ev.1 true) r₁ hinv₁
        (hkeep evs fun ev' hev' => hp ev' (List.mem_cons_of_mem _ hev')) hnd.2
        (fun ev' hev' => by
          rw [Function.update_of_ne (hother ev' hev')]
          exact hun ev' (List.mem_cons_of_mem _ hev')) with
        ⟨done', r', hrun, hinv, hmono, hall⟩
      have hfirst : done' ev.1 = true := hmono ev.1 (Function.update_self _ _ _)
      refine ⟨done', r', ?_, hinv, fun e hd => ?_, fun ev' hev' => ?_⟩
      · rcases readString_of_readAndClose hrun₁ with ⟨r₀, hread, rfl⟩
        simp only [epollEvents, hread, ok_bind, left_update, undone_update he]
        exact hrun
      · by_cases hee : e = ev.1
        · rw [hee]
          exact hfirst
        · exact hmono e (by rw [Function.update_of_ne hee]; exact hd)
      · rcases List.mem_cons.mp hev' with rfl | hev'
        · exact hfirst
        · exact hall ev' hev'

/-- **epoll** reads both ends. -/
lemma epollLoop_spec (sched : Schedule) (n : ℕ) : ∀ (done : End → Bool) (r : Run World),
    undone done = n → Inv msg r done →
    ∃ fuel r', epollLoop (pipes msg sched) fuel (left done) (undone done) r = .ok r'
      ∧ Inv msg r' fun _ => true := by
  induction n using Nat.strongRecOn with
  | ind n ih =>
      intro done r hn h
      by_cases hzero : undone done = 0
      · refine ⟨1, r, ?_, undone_eq_zero hzero ▸ h⟩
        rw [epollLoop, if_neg (by omega)]
        rfl
      · rcases wait_spec sched h (exists_left hzero) with
          ⟨evs, w, hwait, hinv, hpend, ⟨ev, hev⟩, hnd, htrue⟩
        rcases epollEvents_spec sched evs done _ hinv hpend hnd
            (fun ev' h' => (htrue ev' h').1) with
          ⟨done', r₁, hrun₁, hinv₁, hmono, hall⟩
        have hless := undone_lt hmono ⟨ev.1, (htrue ev hev).1, hall ev hev⟩
        rcases ih (undone done') (hn ▸ hless) done' r₁ rfl hinv₁ with ⟨fuel, r', hrun, hfin⟩
        refine ⟨fuel + 1, r', ?_, hfin⟩
        rw [epollLoop, if_pos (by omega), hwait]
        simp only [ok_bind, hrun₁]
        exact hrun

/-! ### poll -/

/-- `fds[i].fd`. -/
def slot (done : End → Bool) (e : End) : Option End := if done e then none else some e

lemma left_of_slots (done : End → Bool) :
    (slot done .ra).toList ++ (slot done .rb).toList = left done := by
  cases hra : done .ra <;> cases hrb : done .rb <;> simp [slot, left, hra, hrb]

/-- An end without a report has no bits set; with one, the bits are those of the report. -/
lemma revents_data {evs : List (End × Ready)} (h : (revents e evs).data = true) :
    ∃ ev ∈ evs, ev.1 = e ∧ ev.2.data = true := by
  unfold revents at h
  cases hfind : evs.find? fun ev => ev.1 = e with
  | none => simp [hfind] at h
  | some ev =>
      rw [hfind] at h
      exact ⟨ev, List.mem_of_find?_eq_some hfind, by simpa using List.find?_some hfind, h⟩

/-- A slot is cleared when its end reports data. -/
lemma pollSlot_spec (sched : Schedule) {evs : List (End × Ready)} (h : Inv msg r done)
    (hp : Pending evs r done) (e : End) :
    ∃ done' r', pollSlot (pipes msg sched) evs (slot done e) (undone done) r
        = .ok (slot done' e, (undone done' : ℤ), r')
      ∧ Inv msg r' done' ∧ Pending evs r' done'
      ∧ done' = Function.update done e (done e || (revents e evs).data) := by
  cases he : done e with
  | true =>
      refine ⟨done, r, by simp [slot, he, pollSlot], h, hp, ?_⟩
      rw [Bool.true_or, ← he, Function.update_eq_self]
  | false =>
      have hpos : undone done ≠ 0 := Nat.ne_of_gt (List.length_pos_of_mem (mem_left.mpr he))
      cases hdata : (revents e evs).data with
      | false =>
          refine ⟨done, r, by simp [slot, he, pollSlot, hdata], h, hp, ?_⟩
          rw [Bool.false_or, ← he, Function.update_eq_self]
      | true =>
          rcases revents_data hdata with ⟨ev, hev, hev', _⟩
          have hready : isReady r.kernel e = true := hev' ▸ hp ev hev (hev' ▸ he)
          rcases readAndClose_spec sched h he hready with ⟨r', hrun, hinv, hkeep⟩
          refine ⟨Function.update done e true, r', ?_, hinv, hkeep evs hp, by simp⟩
          simp [slot, he, pollSlot, hdata, hpos, hrun, undone_update he]

/-- **One wakeup of poll**: the ends that report data are read, and the others are left. -/
lemma pollLoop_step (sched : Schedule) (h : Inv msg r done) (hleft : undone done ≠ 0) :
    ∃ w evs r', Inv msg r' (fun e => done e || (revents e evs).data)
      ∧ (∃ ev, ev ∈ evs) ∧ Inv msg ⟨w, r.log⟩ done
      ∧ (∀ ev ∈ evs, done ev.1 = false ∧ isReady w ev.1 = true ∧ ev.2 = ready w ev.1)
      ∧ ∀ fuel,
          pollLoop (pipes msg sched) (fuel + 1) (slot done .ra) (slot done .rb) (undone done) r
          = pollLoop (pipes msg sched) fuel (slot (fun e => done e || (revents e evs).data) .ra)
              (slot (fun e => done e || (revents e evs).data) .rb)
              (undone fun e => done e || (revents e evs).data) r' := by
  rcases wait_spec sched h (exists_left hleft) with ⟨evs, w, hwait, hinv, hpend, hsome, _, htrue⟩
  rcases pollSlot_spec sched hinv hpend .ra with ⟨done₁, r₁, hrun₁, hinv₁, hpend₁, hd₁⟩
  rcases pollSlot_spec sched hinv₁ hpend₁ .rb with ⟨done₂, r₂, hrun₂, hinv₂, _, hd₂⟩
  have hsame : done₂ = fun e => done e || (revents e evs).data := by
    funext e
    rw [hd₂, hd₁]
    cases e <;> simp
  subst hsame
  have hslotA : slot done₁ .ra = slot (fun e => done e || (revents e evs).data) .ra := by
    simp [slot, hd₁]
  have hslotB : slot done .rb = slot done₁ .rb := by simp [slot, hd₁]
  refine ⟨w, evs, r₂, hinv₂, hsome, hinv, htrue, fun fuel => ?_⟩
  rw [pollLoop, if_pos (by omega), left_of_slots]
  simp only [hwait, ok_bind, hrun₁, hslotB, hrun₂, hslotA]

/-- With something to read in every message, **poll** reads both ends. -/
lemma pollLoop_spec (sched : Schedule) (hne : ∀ e, (msg e).bytes ≠ []) (n : ℕ) :
    ∀ (done : End → Bool) (r : Run World), undone done = n → Inv msg r done →
    ∃ fuel r', pollLoop (pipes msg sched) fuel (slot done .ra) (slot done .rb) (undone done) r
        = .ok (none, none, r') ∧ Inv msg r' fun _ => true := by
  induction n using Nat.strongRecOn with
  | ind n ih =>
      intro done r hn h
      by_cases hzero : undone done = 0
      · have hall := undone_eq_zero hzero
        subst hall
        refine ⟨1, r, ?_, h⟩
        rw [pollLoop, if_neg (by omega)]
        rfl
      · rcases pollLoop_step sched h hzero with ⟨w, evs, r₁, hinv₁, ⟨ev, hev⟩, hinv, htrue, hstep⟩
        set done' : End → Bool := fun e => done e || (revents e evs).data with hdone'
        -- an end that is ready has data, because its message is not empty
        have hdata : ∀ ev' ∈ evs, ev'.2.data = true := by
          intro ev' hev'
          rcases htrue ev' hev' with ⟨hd, hr, hrep⟩
          have hbuf : (w.pipe ev'.1).buffer = _ := (hinv.phase ev'.1 hd).buffer_eq hr
          simpa [hrep, ready, hbuf] using hne ev'.1
        have hnew : done' ev.1 = true := by
          have hfound : ∃ ev', evs.find? (fun x => x.1 = ev.1) = some ev' := by
            rw [← Option.isSome_iff_exists, List.find?_isSome]
            exact ⟨ev, hev, by simp⟩
          rcases hfound with ⟨ev', hev'⟩
          simp [hdone', revents, hev', hdata ev' (List.mem_of_find?_eq_some hev')]
        have hless := undone_lt (fun e he => by simp [hdone', he]) ⟨ev.1, (htrue ev hev).1, hnew⟩
        rcases ih (undone done') (hn ▸ hless) done' r₁ rfl hinv₁ with ⟨fuel, r', hrun, hfin⟩
        exact ⟨fuel + 1, r', (hstep fuel).trans hrun, hfin⟩

/-- With an empty message **poll** is woken for ever: the end is ready and never has data. -/
lemma pollLoop_spins (sched : Schedule) (hempty : (msg e).bytes = []) : ∀ (fuel : ℕ)
    (done : End → Bool) (r : Run World), done e = false → Inv msg r done →
    pollLoop (pipes msg sched) fuel (slot done .ra) (slot done .rb) (undone done) r
      = .error .diverges := by
  intro fuel
  induction fuel with
  | zero => exact fun _ _ _ _ => rfl
  | succ fuel ih =>
      intro done r he h
      have hleft : undone done ≠ 0 := fun hzero => by
        rw [undone_eq_zero hzero] at he
        cases he
      rcases pollLoop_step sched h hleft with ⟨w, evs, r₁, hinv₁, _, hinv, htrue, hstep⟩
      rw [hstep]
      refine ih _ r₁ ?_ hinv₁
      by_contra hdone
      have hbit : (revents e evs).data = true := by simpa [he] using hdone
      rcases revents_data hbit with ⟨ev, hev, rfl, hdata⟩
      rcases htrue ev hev with ⟨hd, hr, hrep⟩
      have hbuf : (w.pipe ev.1).buffer = _ := (hinv.phase ev.1 hd).buffer_eq hr
      simp [hrep, ready, hbuf, hempty] at hdata

/-! ## The three sections -/

/-- Some number of wakeups is enough for the section to end, and then it has read once from each
pipe, and printed the first `min(31, length)` bytes of each message. -/
def ReadsBoth (msg : End → Message) (sec : ℕ → Except Stop (Run World)) : Prop :=
  ∃ fuel r, sec fuel = .ok r ∧ ∀ e, strings e r.log = [(msg e).bytes.take 31]

lemma inv_start (msg : End → Message) (sched : Schedule) :
    Inv msg ⟨twoWriters sched, []⟩ fun _ => false :=
  ⟨fun e _ => .fresh (sched.program e) rfl, fun _ _ => rfl, fun _ h => by cases h⟩

lemma section2Select_reads (msg : End → Message) (sched : Schedule) :
    ReadsBoth msg fun fuel => section2Select (pipes msg sched) fuel (twoWriters sched) := by
  rcases selectLoop_spec sched _ _ _ rfl (inv_start msg sched) with ⟨fuel, r, hrun, hinv⟩
  exact ⟨fuel, r, by simp [section2Select, hrun], fun e => hinv.got e rfl⟩

lemma section4Epoll_reads (msg : End → Message) (sched : Schedule) :
    ReadsBoth msg fun fuel => section4Epoll (pipes msg sched) fuel (twoWriters sched) := by
  rcases epollLoop_spec sched _ _ _ rfl (inv_start msg sched) with ⟨fuel, r, hrun, hinv⟩
  exact ⟨fuel, r, hrun, fun e => hinv.got e rfl⟩

lemma section3Poll_reads (sched : Schedule) (hne : ∀ e, (msg e).bytes ≠ []) :
    ReadsBoth msg fun fuel => section3Poll (pipes msg sched) fuel (twoWriters sched) := by
  rcases pollLoop_spec sched hne _ _ _ rfl (inv_start msg sched) with ⟨fuel, r, hrun, hinv⟩
  have hrun' : pollLoop (pipes msg sched) fuel (some .ra) (some .rb) 2 ⟨twoWriters sched, []⟩
      = .ok (none, none, r) := hrun
  exact ⟨fuel, r, by simp [section3Poll, hrun'], fun e => hinv.got e rfl⟩

lemma section3Poll_spins (sched : Schedule) (hempty : (msg e).bytes = []) (fuel : ℕ) :
    section3Poll (pipes msg sched) fuel (twoWriters sched) = .error .diverges := by
  have hrun := pollLoop_spins sched hempty fuel _ _ rfl (inv_start msg sched)
  have hrun' : pollLoop (pipes msg sched) fuel (some .ra) (some .rb) 2 ⟨twoWriters sched, []⟩
      = .error .diverges := hrun
  simp [section3Poll, hrun']

/-- **The three readers agree exactly when no message is empty.**  Whatever the order in which
things happen to each of them, all three end with the same two strings, one read on each pipe, if
and only if both messages have something in them. -/
theorem readers_agree_iff (msg : End → Message) (sched₂ sched₃ sched₄ : Schedule) :
    (ReadsBoth msg (fun fuel => section2Select (pipes msg sched₂) fuel (twoWriters sched₂))
      ∧ ReadsBoth msg (fun fuel => section3Poll (pipes msg sched₃) fuel (twoWriters sched₃))
      ∧ ReadsBoth msg fun fuel => section4Epoll (pipes msg sched₄) fuel (twoWriters sched₄))
    ↔ ∀ e, (msg e).bytes ≠ [] := by
  constructor
  · rintro ⟨_, ⟨fuel, r, hrun, _⟩, _⟩ e hempty
    simp only [section3Poll_spins sched₃ hempty fuel] at hrun
    cases hrun
  · intro hne
    exact ⟨section2Select_reads msg sched₂, section3Poll_reads sched₃ hne,
      section4Epoll_reads msg sched₄⟩

/-- The first child has nothing to say and both finish before anybody looks. -/
def emptyMessage : End → Message
  | .ra => ⟨⟨[], by simp⟩, by simp [CStr.strlen, PIPE_BUF]⟩
  | .rb => ⟨⟨[120], by simp⟩, by simp [CStr.strlen, PIPE_BUF]⟩

def bothFirst : Schedule where
  steps := [.write .ra, .close .ra, .write .rb, .close .rb]
  delay _ := 4
  flip _ := false
  program e := by cases e <;> rfl

/-- On these, select and epoll read an empty string and the other message; poll never ends. -/
theorem poll_spins_on_empty :
    ReadsBoth emptyMessage
        (fun fuel => section2Select (pipes emptyMessage bothFirst) fuel (twoWriters bothFirst))
    ∧ ReadsBoth emptyMessage
        (fun fuel => section4Epoll (pipes emptyMessage bothFirst) fuel (twoWriters bothFirst))
    ∧ (∀ fuel, section3Poll (pipes emptyMessage bothFirst) fuel (twoWriters bothFirst)
        = .error .diverges)
    ∧ ¬ ReadsBoth emptyMessage
        (fun fuel => section3Poll (pipes emptyMessage bothFirst) fuel (twoWriters bothFirst)) := by
  have hspin : ∀ fuel, section3Poll (pipes emptyMessage bothFirst) fuel (twoWriters bothFirst)
      = .error .diverges := section3Poll_spins (e := .ra) bothFirst rfl
  refine ⟨section2Select_reads _ _, section4Epoll_reads _ _, hspin, ?_⟩
  rintro ⟨fuel, r, hrun, _⟩
  simp only [hspin fuel] at hrun
  cases hrun

end CExercises.IoMux
