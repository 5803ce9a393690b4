import CExercises.IoMux.ReadersDef
import Mathlib.Data.List.Nodup

/-!
# What the three readers close

The same three loops as in `IoMux/Readers.lean`, now in a world where a wait may also come back with
a timeout or an error.  The kernel follows a script: a list of answers, one for every wait.  When
the script is over, a wait does not come back.

select and poll close what is left after the loop; "timeout / error paths break early", as their
comments say.  epoll has no such lines.
-/

namespace CExercises.IoMux

/-- How one wait comes back.  `ready state flip` shows the state of both ends to the kernel, which
reports those of the watched ones that have something to report; `flip` is the order. -/
inductive Answer
  | timeout
  | error
  | ready (state : End → Ready) (flip : Bool)

/-- The answer has something to report about an end. -/
def Answer.reports (e : End) : Answer → Bool
  | .timeout => false
  | .error => false
  | .ready state _ => (state e).data || (state e).hup

/-- What a wait on `watched` returns.  With nothing to report it returns `0`, as on a timeout. -/
def Answer.outcome (watched : List End) : Answer → Outcome
  | .timeout => .timeout
  | .error => .error
  | .ready state flip =>
      let evs := (watched.filter fun e => (Answer.ready state flip).reports e).map
        fun e => (e, state e)
      if evs.isEmpty then .timeout else .ready (if flip then evs.reverse else evs)

/-- A kernel that follows a script.  `text e` is what the pipe of `e` holds. -/
def scripted (text : End → List UInt8) : Kernel (List Answer) where
  wait watched script :=
    match script with
    | [] => .error .diverges
    | a :: script => .ok (a.outcome watched, script)
  read e n script := .ok ((text e).take n, script)

/-- How often an end is closed. -/
def closes (e : End) (log : List Action) : ℕ :=
  log.countP fun
    | .close e' => e' = e
    | .got _ _ => false

/-- A section that reaches its end has closed both ends exactly once. -/
def ClosesOnce (sec : ℕ → List Answer → Except Stop (Run (List Answer))) (script : List Answer) :
    Prop :=
  ∀ fuel r, sec fuel script = .ok r → ∀ e, closes e r.log = 1

/-- A wait on the ends of `interest` that no answer has reported yet is answered with none of
them. -/
def Interrupted (interest : List End) (script : List Answer) : Prop :=
  ∃ pre a post, script = pre ++ a :: post
    ∧ (∃ e ∈ interest, ∀ b ∈ pre, b.reports e = false)
    ∧ ∀ e ∈ interest, (∀ b ∈ pre, b.reports e = false) → a.reports e = false

section

variable {K : Type} {kern : Kernel K} {r r' : Run K} {e e' : End}

/-! ## One close -/

@[simp] lemma closes_closeEnd :
    closes e' (closeEnd r e).log = closes e' r.log + if e = e' then 1 else 0 := by
  simp [closes, closeEnd, List.countP_append, List.countP_cons]

lemma closes_readString (h : readString kern r e = .ok r') :
    closes e' r'.log = closes e' r.log := by
  rcases bind_eq_ok.mp h with ⟨⟨bytes, k⟩, _, hr⟩
  cases hr
  simp [closes]

lemma closes_readAndClose (h : readAndClose kern r e = .ok r') :
    closes e' r'.log = closes e' r.log + if e = e' then 1 else 0 := by
  rcases bind_eq_ok.mp h with ⟨r₁, hread, hr⟩
  cases hr
  rw [closes_closeEnd, closes_readString hread]

/-! ## select -/

lemma closes_selectEnd {evs : List (End × Ready)} {done done' : Bool}
    (h : selectEnd kern evs e done r = .ok (done', r')) :
    (closes e r.log = done.toNat → closes e r'.log = done'.toNat)
      ∧ ∀ e', e ≠ e' → closes e' r'.log = closes e' r.log := by
  unfold selectEnd at h
  split_ifs at h with hset
  · rcases bind_eq_ok.mp h with ⟨r₁, hread, hr⟩
    cases hr
    simp only [Bool.and_eq_true, Bool.not_eq_true'] at hset
    refine ⟨fun hclosed => ?_, fun e' he' => ?_⟩
    · rw [closes_readAndClose hread, hclosed, hset.1]
      simp
    · rw [closes_readAndClose hread, if_neg he']
      rfl
  · cases h
    exact ⟨id, fun _ _ => rfl⟩

/-- **Loop.**  The flag of an end says whether it has been closed. -/
lemma closes_selectLoop : ∀ (fuel : ℕ) {doneA doneB doneA' doneB' : Bool} {r r' : Run K},
    selectLoop kern fuel doneA doneB r = .ok (doneA', doneB', r') →
    closes .ra r.log = doneA.toNat → closes .rb r.log = doneB.toNat →
      closes .ra r'.log = doneA'.toNat ∧ closes .rb r'.log = doneB'.toNat
  | 0, _, _, _, _, _, _, h, _, _ => by simp [selectLoop] at h
  | fuel + 1, doneA, doneB, doneA', doneB', r, r', h, ha, hb => by
      by_cases hleft : (!doneA || !doneB) = true
      · rw [selectLoop, if_pos hleft] at h
        rcases bind_eq_ok.mp h with ⟨⟨out, k⟩, _, hrest⟩
        cases out with
        | timeout | error =>
            cases hrest
            exact ⟨ha, hb⟩
        | ready evs =>
            rcases bind_eq_ok.mp hrest with ⟨⟨doneA₁, r₁⟩, hselA, hrest⟩
            rcases bind_eq_ok.mp hrest with ⟨⟨doneB₂, r₂⟩, hselB, hrest⟩
            rcases closes_selectEnd hselA with ⟨hownA, hotherA⟩
            rcases closes_selectEnd hselB with ⟨hownB, hotherB⟩
            refine closes_selectLoop fuel hrest ?_ ?_
            · rw [hotherB .ra (by simp)]
              exact hownA ha
            · refine hownB ?_
              rw [hotherA .rb (by simp)]
              exact hb
      · rw [selectLoop, if_neg hleft] at h
        cases h
        exact ⟨ha, hb⟩

/-- The two lines after the loop close what the flags say is open. -/
theorem section2Select_closes {fuel : ℕ} {k : K} (h : section2Select kern fuel k = .ok r)
    (e : End) : closes e r.log = 1 := by
  rcases bind_eq_ok.mp h with ⟨⟨doneA, doneB, r₁⟩, hloop, hr⟩
  rcases closes_selectLoop fuel hloop rfl rfl with ⟨ha, hb⟩
  cases hr
  cases doneA <;> cases doneB <;> cases e <;> simp [ha, hb]

/-! ## poll -/

lemma closes_pollSlot {evs : List (End × Ready)} {fd fd' : Option End} {n n' : ℤ}
    (h : pollSlot kern evs fd n r = .ok (fd', n', r')) (hslot : ∀ a ∈ fd, a = e) :
    (∀ a ∈ fd', a = e)
      ∧ (closes e r.log + fd.toList.length = 1 → closes e r'.log + fd'.toList.length = 1)
      ∧ ∀ e', e ≠ e' → closes e' r'.log = closes e' r.log := by
  cases fd with
  | none =>
      cases h
      exact ⟨hslot, id, fun _ _ => rfl⟩
  | some a =>
      have ha : a = e := hslot a rfl
      subst ha
      simp only [pollSlot] at h
      split_ifs at h with hset
      · rcases bind_eq_ok.mp h with ⟨r₁, hread, hr⟩
        cases hr
        refine ⟨by simp, fun hclosed => ?_, fun e' he' => ?_⟩
        · simpa [closes_readAndClose hread] using hclosed
        · rw [closes_readAndClose hread, if_neg he']
          rfl
      · cases h
        exact ⟨hslot, id, fun _ _ => rfl⟩

/-- **Loop.**  A slot keeps its descriptor until that is closed. -/
lemma closes_pollLoop : ∀ (fuel : ℕ) {fdA fdB fdA' fdB' : Option End} {n : ℤ} {r r' : Run K},
    pollLoop kern fuel fdA fdB n r = .ok (fdA', fdB', r') →
    (∀ a ∈ fdA, a = .ra) → (∀ b ∈ fdB, b = .rb) →
    closes .ra r.log + fdA.toList.length = 1 → closes .rb r.log + fdB.toList.length = 1 →
      (∀ a ∈ fdA', a = .ra) ∧ (∀ b ∈ fdB', b = .rb)
        ∧ closes .ra r'.log + fdA'.toList.length = 1 ∧ closes .rb r'.log + fdB'.toList.length = 1
  | 0, _, _, _, _, _, _, _, h, _, _, _, _ => by simp [pollLoop] at h
  | fuel + 1, fdA, fdB, fdA', fdB', n, r, r', h, hslotA, hslotB, ha, hb => by
      by_cases hleft : n > 0
      · rw [pollLoop, if_pos hleft] at h
        rcases bind_eq_ok.mp h with ⟨⟨out, k⟩, _, hrest⟩
        cases out with
        | timeout | error =>
            cases hrest
            exact ⟨hslotA, hslotB, ha, hb⟩
        | ready evs =>
            rcases bind_eq_ok.mp hrest with ⟨⟨fdA₁, n₁, r₁⟩, hpollA, hrest⟩
            rcases bind_eq_ok.mp hrest with ⟨⟨fdB₂, n₂, r₂⟩, hpollB, hrest⟩
            rcases closes_pollSlot hpollA hslotA with ⟨hslotA₁, hownA, hotherA⟩
            rcases closes_pollSlot hpollB hslotB with ⟨hslotB₂, hownB, hotherB⟩
            refine closes_pollLoop fuel hrest hslotA₁ hslotB₂ ?_ ?_
            · rw [hotherB .ra (by simp)]
              exact hownA ha
            · refine hownB ?_
              rw [hotherA .rb (by simp)]
              exact hb
      · rw [pollLoop, if_neg hleft] at h
        cases h
        exact ⟨hslotA, hslotB, ha, hb⟩

lemma closes_slot {fd : Option End} (hslot : ∀ a ∈ fd, a = e) :
    closes e' (fd.toList.foldl closeEnd r).log
      = closes e' r.log + if e = e' then fd.toList.length else 0 := by
  cases fd with
  | none => simp
  | some a =>
      have ha : a = e := hslot a rfl
      subst ha
      simp

/-- The loop after the loop closes the slots that still hold a descriptor. -/
theorem section3Poll_closes {fuel : ℕ} {k : K} (h : section3Poll kern fuel k = .ok r) (e : End) :
    closes e r.log = 1 := by
  rcases bind_eq_ok.mp h with ⟨⟨fdA, fdB, r₁⟩, hloop, hr⟩
  rcases closes_pollLoop fuel hloop (by simp) (by simp) rfl rfl with ⟨hslotA, hslotB, ha, hb⟩
  cases hr
  rw [closes_slot hslotB, closes_slot hslotA]
  cases e with
  | ra => simpa using ha
  | rb => simpa using hb

end

/-! ## epoll -/

section

variable {text : End → List UInt8} {a : Answer} {script : List Answer} {interest : List End}
  {r : Run (List Answer)}

/-- The interest list is what is open. -/
structure Registered (interest : List End) (r : Run (List Answer)) : Prop where
  nodup : interest.Nodup
  closes : ∀ e, closes e r.log = if e ∈ interest then 0 else 1

lemma readString_scripted (text : End → List UInt8) (r : Run (List Answer)) (e : End) :
    ∃ r', readString (scripted text) r e = .ok r' ∧ r'.kernel = r.kernel :=
  ⟨_, rfl, rfl⟩

/-- Unregistering an end that is there shortens the list by one. -/
lemma length_unregister {e : End} (hnodup : interest.Nodup) (he : e ∈ interest) :
    ((interest.filter (· ≠ e)).length : ℤ) = interest.length - 1 := by
  have herase : interest.filter (· ≠ e) = interest.erase e := by
    rw [hnodup.erase_eq_filter]
    refine List.filter_congr fun x _ => ?_
    rw [Bool.eq_iff_iff]
    simp
  have hpos := List.length_pos_of_mem he
  rw [herase, List.length_erase_of_mem he]
  omega

/-- An event reads, unregisters and closes its end. -/
lemma Registered.event (h : Registered interest r) (text : End → List UInt8) {e : End}
    (he : e ∈ interest) :
    ∃ r', readString (scripted text) r e = .ok r' ∧ r'.kernel = r.kernel
      ∧ Registered (interest.filter (· ≠ e)) (closeEnd r' e) := by
  rcases readString_scripted text r e with ⟨r', hread, hkernel⟩
  refine ⟨r', hread, hkernel, h.nodup.filter _, fun e' => ?_⟩
  rw [closes_closeEnd, closes_readString hread, h.closes]
  by_cases heq : e = e'
  · subst heq
    simp [he]
  · simp [heq, Ne.symm heq]

/-- **Events.**  The ends of a report are closed and unregistered. -/
lemma epollEvents_closes (text : End → List UInt8) :
    ∀ (evs : List (End × Ready)) {interest : List End} {r : Run (List Answer)},
    Registered interest r → (evs.map Prod.fst).Nodup → (∀ e ∈ evs.map Prod.fst, e ∈ interest) →
      ∃ interest' r', epollEvents (scripted text) evs interest interest.length r
          = .ok (interest', interest'.length, r')
        ∧ interest' = interest.filter (· ∉ evs.map Prod.fst) ∧ Registered interest' r'
        ∧ r'.kernel = r.kernel
  | [], interest, r, h, _, _ => ⟨interest, r, rfl, by simp, h, rfl⟩
  | ev :: evs, interest, r, h, hnodup, hsub => by
      rw [List.map_cons, List.nodup_cons] at hnodup
      have hev : ev.1 ∈ interest := hsub _ (by simp)
      rcases h.event text hev with ⟨r₁, hread, hkernel₁, h₁⟩
      have hsub₁ : ∀ e ∈ evs.map Prod.fst, e ∈ interest.filter (· ≠ ev.1) := by
        intro e he
        rw [List.mem_filter]
        refine ⟨hsub e (List.mem_cons_of_mem _ he), ?_⟩
        simp only [decide_eq_true_eq]
        rintro rfl
        exact hnodup.1 he
      rcases epollEvents_closes text evs h₁ hnodup.2 hsub₁ with
        ⟨interest', r', hrun, hint, h', hkernel'⟩
      refine ⟨interest', r', ?_, ?_, h', hkernel'.trans hkernel₁⟩
      · rw [length_unregister h.nodup hev] at hrun
        simp only [epollEvents, hread, ok_bind, hrun]
      · rw [hint, List.filter_filter]
        refine List.filter_congr fun e _ => ?_
        rw [Bool.eq_iff_iff]
        simp only [Bool.and_eq_true, decide_eq_true_eq, List.map_cons, List.mem_cons, not_or,
          ne_eq]
        exact and_comm

/-- A wait that finds nothing to report comes back with a timeout or an error. -/
lemma outcome_silent (h : ∀ e ∈ interest, a.reports e = false) :
    a.outcome interest = .timeout ∨ a.outcome interest = .error := by
  cases a with
  | timeout => exact Or.inl rfl
  | error => exact Or.inr rfl
  | ready state flip =>
      have hnone : interest.filter (fun e => (Answer.ready state flip).reports e) = [] := by
        rw [List.filter_eq_nil_iff]
        intro e he
        simp [h e he]
      exact Or.inl (by simp [Answer.outcome, hnone])

/-- Otherwise it lists the ends of the interest list that the answer reports. -/
lemma outcome_ready {e : End} (hnodup : interest.Nodup) (he : e ∈ interest)
    (hreports : a.reports e = true) :
    ∃ evs, a.outcome interest = .ready evs ∧ (evs.map Prod.fst).Nodup
      ∧ ∀ e, e ∈ evs.map Prod.fst ↔ e ∈ interest ∧ a.reports e = true := by
  cases a with
  | timeout | error => cases hreports
  | ready state flip =>
      set ends := interest.filter fun e => (Answer.ready state flip).reports e with hends
      have hmem : e ∈ ends := List.mem_filter.mpr ⟨he, hreports⟩
      have hempty : (ends.map fun e => (e, state e)).isEmpty = false := by
        rw [List.isEmpty_eq_false_iff]
        exact List.ne_nil_of_mem (List.mem_map_of_mem hmem)
      have hfst : (ends.map fun e => (e, state e)).map Prod.fst = ends := by
        simp [Function.comp_def]
      have hmemEnds : ∀ e', e' ∈ ends ↔
          e' ∈ interest ∧ (Answer.ready state flip).reports e' = true :=
        fun e' => List.mem_filter
      refine ⟨if flip then (ends.map fun e => (e, state e)).reverse
        else ends.map fun e => (e, state e), ?_, ?_, fun e' => ?_⟩
      · simp only [Answer.outcome, ← hends, hempty, Bool.false_eq_true, if_false]
      · split_ifs
        · rw [List.map_reverse, hfst, List.nodup_reverse]
          exact hnodup.filter _
        · rw [hfst]
          exact hnodup.filter _
      · rw [← hmemEnds]
        split_ifs
        · rw [List.map_reverse, hfst, List.mem_reverse]
        · rw [hfst]

/-! ## Interruptions -/

lemma not_interrupted_nil : ¬ Interrupted interest [] := by
  rintro ⟨pre, a, post, hcut, -⟩
  simp at hcut

lemma not_interrupted_of_none : ¬ Interrupted [] script := by
  rintro ⟨pre, a, post, -, ⟨e, he, -⟩, -⟩
  cases he

/-- The first wait is answered with nothing, or a later one is. -/
lemma interrupted_cons : Interrupted interest (a :: script) ↔
    (interest ≠ [] ∧ ∀ e ∈ interest, a.reports e = false)
      ∨ Interrupted (interest.filter fun e => a.reports e = false) script := by
  constructor
  · rintro ⟨_ | ⟨b, pre⟩, a', post, hcut, ⟨e, he, hquiet⟩, hsilent⟩
    · cases hcut
      exact Or.inl ⟨List.ne_nil_of_mem he, fun e he => hsilent e he (by simp)⟩
    · rcases List.cons.inj hcut with ⟨rfl, rfl⟩
      refine Or.inr ⟨pre, a', post, rfl, ⟨e, ?_, ?_⟩, ?_⟩
      · simp [he, hquiet a (by simp)]
      · exact fun b hb => hquiet b (List.mem_cons_of_mem _ hb)
      · intro e' he' hquiet'
        rw [List.mem_filter] at he'
        refine hsilent e' he'.1 fun b hb => ?_
        rcases List.mem_cons.mp hb with rfl | hb
        · simpa using he'.2
        · exact hquiet' b hb
  · rintro (⟨hne, hsilent⟩ | ⟨pre, a', post, rfl, ⟨e, he, hquiet⟩, hsilent⟩)
    · rcases List.exists_mem_of_ne_nil _ hne with ⟨e, he⟩
      exact ⟨[], a, script, rfl, ⟨e, he, by simp⟩, fun e he _ => hsilent e he⟩
    · rw [List.mem_filter] at he
      refine ⟨a :: pre, a', post, rfl, ⟨e, he.1, ?_⟩, fun e' he' hquiet' => ?_⟩
      · intro b hb
        rcases List.mem_cons.mp hb with rfl | hb
        · simpa using he.2
        · exact hquiet b hb
      · refine hsilent e' ?_ fun b hb => hquiet' b (List.mem_cons_of_mem _ hb)
        simp [he', hquiet' a (by simp)]

/-! ## The loop of epoll -/

/-- When nothing is registered any more, the loop is over. -/
lemma epollLoop_done {fuel : ℕ} :
    epollLoop (scripted text) (fuel + 1) [] ([] : List End).length r = .ok r := rfl

/-- The loop at a wait. -/
lemma epollLoop_wait {fuel : ℕ} (hne : interest ≠ []) (hkernel : r.kernel = a :: script) :
    epollLoop (scripted text) (fuel + 1) interest interest.length r
      = match a.outcome interest with
        | .timeout => .ok ⟨script, r.log⟩
        | .error => .ok ⟨script, r.log⟩
        | .ready evs =>
            epollEvents (scripted text) evs interest interest.length ⟨script, r.log⟩ >>= fun t =>
              epollLoop (scripted text) fuel t.1 t.2.1 t.2.2 := by
  have hpos := List.length_pos_of_ne_nil hne
  rw [epollLoop, if_pos (by omega), hkernel]
  rfl

/-- A wait that is answered with nothing ends the loop. -/
lemma epollLoop_silent {fuel : ℕ} (hne : interest ≠ []) (hkernel : r.kernel = a :: script)
    (hsilent : ∀ e ∈ interest, a.reports e = false) :
    epollLoop (scripted text) (fuel + 1) interest interest.length r = .ok ⟨script, r.log⟩ := by
  rw [epollLoop_wait hne hkernel]
  rcases outcome_silent hsilent with hout | hout <;> rw [hout]

/-- After a report the loop goes on with the ends that were not in it. -/
lemma Registered.wait (h : Registered interest r) (text : End → List UInt8)
    (hkernel : r.kernel = a :: script) {e : End} (he : e ∈ interest)
    (hreports : a.reports e = true) :
    ∃ r', Registered (interest.filter fun e => a.reports e = false) r' ∧ r'.kernel = script
      ∧ ∀ fuel, epollLoop (scripted text) (fuel + 1) interest interest.length r
          = epollLoop (scripted text) fuel (interest.filter fun e => a.reports e = false)
              (interest.filter fun e => a.reports e = false).length r' := by
  rcases outcome_ready h.nodup he hreports with ⟨evs, hout, hnodup, hmem⟩
  have h₀ : Registered interest ⟨script, r.log⟩ := ⟨h.nodup, h.closes⟩
  rcases epollEvents_closes text evs h₀ hnodup fun e he => ((hmem e).mp he).1 with
    ⟨interest', r', hrun, hint, h', hkernel'⟩
  have hrest : interest' = interest.filter fun e => a.reports e = false := by
    rw [hint]
    refine List.filter_congr fun e he => ?_
    rw [Bool.eq_iff_iff]
    simp [hmem, he]
  subst hrest
  refine ⟨r', h', hkernel', fun fuel => ?_⟩
  rw [epollLoop_wait (List.ne_nil_of_mem he) hkernel, hout]
  simp only [hrun, ok_bind]

/-- **Loop.**  What is left closes everything exactly when no wait to come is interrupted. -/
lemma epollLoop_closes_iff : ∀ (script : List Answer) {interest : List End}
    {r : Run (List Answer)}, Registered interest r → r.kernel = script →
      ((∀ fuel r', epollLoop (scripted text) fuel interest interest.length r = .ok r' →
          ∀ e, closes e r'.log = 1)
        ↔ ¬ Interrupted interest script)
  | script, [], r, h, hkernel => by
      refine iff_of_true (fun fuel r' hrun e => ?_) not_interrupted_of_none
      cases fuel with
      | zero => cases hrun
      | succ fuel =>
          rw [epollLoop_done] at hrun
          cases hrun
          simp [h.closes]
  | [], e₀ :: rest, r, h, hkernel => by
      refine iff_of_true (fun fuel r' hrun => ?_) not_interrupted_nil
      -- the wait does not come back
      cases fuel with
      | zero => cases hrun
      | succ fuel =>
          rw [epollLoop, if_pos (by simp), hkernel] at hrun
          cases hrun
  | a :: script, e₀ :: rest, r, h, hkernel => by
      rw [interrupted_cons]
      by_cases hsilent : ∀ e ∈ e₀ :: rest, a.reports e = false
      · refine iff_of_false (fun hall => ?_) (not_not_intro (Or.inl ⟨by simp, hsilent⟩))
        have hclosed := hall 1 _ (epollLoop_silent (by simp) hkernel hsilent) e₀
        have hopen := h.closes e₀
        rw [hopen] at hclosed
        simp at hclosed
      · simp only [not_forall, Bool.not_eq_false] at hsilent
        rcases hsilent with ⟨e, he, hreports⟩
        rcases h.wait text hkernel he hreports with ⟨r', h', hkernel', hloop⟩
        have hfirst : ¬ (e₀ :: rest ≠ [] ∧ ∀ e ∈ e₀ :: rest, a.reports e = false) := by
          rintro ⟨-, hall⟩
          rw [hall e he] at hreports
          cases hreports
        rw [or_iff_right hfirst, ← epollLoop_closes_iff script h' hkernel']
        constructor
        · intro hall fuel r'' hrun
          exact hall (fuel + 1) r'' (by rw [hloop, hrun])
        · intro hall fuel r'' hrun
          cases fuel with
          | zero => cases hrun
          | succ fuel => exact hall fuel r'' (by rw [← hloop, hrun])

end

/-- **Which paths close both ends exactly once.**  For every sequence of answers, select and poll
do.  epoll does exactly when no wait that is made while an end is still registered comes back
without one: neither with a timeout nor with an error. -/
theorem read_ends_closed_once_iff (text : End → List UInt8) (script : List Answer) :
    ClosesOnce (section2Select (scripted text)) script
      ∧ ClosesOnce (section3Poll (scripted text)) script
      ∧ (ClosesOnce (section4Epoll (scripted text)) script
          ↔ ¬ Interrupted [.ra, .rb] script) := by
  refine ⟨fun fuel r h => section2Select_closes h, fun fuel r h => section3Poll_closes h, ?_⟩
  exact epollLoop_closes_iff script ⟨by simp, fun e => by cases e <;> rfl⟩ rfl

/-- One end is ready and the next wait times out.  All three sections reach their ends; epoll has
not closed the other end. -/
theorem epoll_leaks_on_timeout :
    let script : List Answer :=
      [.ready (fun e => ⟨e = .rb, false⟩) false, .timeout]
    let sec₂ := section2Select (scripted fun _ => []) 3 script
    let sec₃ := section3Poll (scripted fun _ => []) 3 script
    let sec₄ := section4Epoll (scripted fun _ => []) 3 script
    (∃ r, sec₂ = .ok r ∧ closes .ra r.log = 1 ∧ closes .rb r.log = 1)
      ∧ (∃ r, sec₃ = .ok r ∧ closes .ra r.log = 1 ∧ closes .rb r.log = 1)
      ∧ (∃ r, sec₄ = .ok r ∧ closes .ra r.log = 0 ∧ closes .rb r.log = 1)
      ∧ ¬ ClosesOnce (section4Epoll (scripted fun _ => [])) script := by
  intro script sec₂ sec₃ sec₄
  have hleak : ∃ r, sec₄ = .ok r ∧ closes .ra r.log = 0 ∧ closes .rb r.log = 1 :=
    ⟨_, rfl, rfl, rfl⟩
  refine ⟨⟨_, rfl, rfl, rfl⟩, ⟨_, rfl, rfl, rfl⟩, hleak, fun hall => ?_⟩
  rcases hleak with ⟨r, hrun, hopen, -⟩
  have hclosed := hall 3 r hrun .ra
  omega

end CExercises.IoMux
