import CExercises.Core.Transition
import Mathlib.Algebra.Order.BigOperators.Group.Finset
import Mathlib.Data.Finset.Insert
import Mathlib.Data.Fintype.BigOperators
import Mathlib.Order.WellFounded

/-!
# Threads with mutexes

A thread is a list of operations: it takes a mutex, gives one back, or acts on the data, and `exec`
says what an action does.  The data is all there is besides the mutexes, the registers of every
thread included, so that a load and a store are two actions.  An operation is atomic, and a thread
waits for a mutex that is taken.

**Lock order.**  `Disciplined held ops` says that a thread that holds `held` and has `ops` before it
takes every mutex after the ones it holds, gives back only what it holds, and ends with nothing.  If
all threads do, there is no deadlock (`locks_exists_step`): whoever holds a mutex that somebody
waits for waits, if at all, for one that comes later, and that cannot go on.

**Atomicity.**  Threads that touch the data only in critical sections of one mutex leave it as if
the sections had been run one after the other (`sections_serialize`).

**Conservation.**  Where every action adds a fixed amount to a quantity, what has been added and what
is still to be added are always the same together (`acts_conserve`).
-/

namespace CExercises

/-- One operation of a thread. -/
inductive LockOp (L A : Type)
  | lock (l : L)
  | unlock (l : L)
  | act (a : A)
  deriving DecidableEq

/-- Who holds which mutex, the data, and what every thread has yet to do. -/
structure LockState (T L A D : Type) where
  owner : L → Option T
  data : D
  todo : T → List (LockOp L A)

variable {T L A D : Type}

section

variable [DecidableEq T] [DecidableEq L]

/-- One operation of thread `t`. -/
inductive LockStep (exec : A → D → D) (t : T) : LockState T L A D → LockState T L A D → Prop
  | lock {s : LockState T L A D} {l : L} {rest : List (LockOp L A)}
      (htodo : s.todo t = .lock l :: rest) (hfree : s.owner l = none) :
      LockStep exec t s
        ⟨Function.update s.owner l (some t), s.data, Function.update s.todo t rest⟩
  | unlock {s : LockState T L A D} {l : L} {rest : List (LockOp L A)}
      (htodo : s.todo t = .unlock l :: rest) (hmine : s.owner l = some t) :
      LockStep exec t s ⟨Function.update s.owner l none, s.data, Function.update s.todo t rest⟩
  | act {s : LockState T L A D} {a : A} {rest : List (LockOp L A)}
      (htodo : s.todo t = .act a :: rest) :
      LockStep exec t s ⟨s.owner, exec a s.data, Function.update s.todo t rest⟩

/-- All threads at the start of their programs, and all mutexes free. -/
def lockSystem (exec : A → D → D) (data : D) (prog : T → List (LockOp L A)) :
    System (LockState T L A D) T where
  init s := s = ⟨fun _ => none, data, prog⟩
  step := LockStep exec

/-! ## Runs end -/

section

variable [Fintype T] {exec : A → D → D} {s s' : LockState T L A D} {t : T} {data : D}
  {prog : T → List (LockOp L A)}

/-- The operations that are left. -/
def LockState.left (s : LockState T L A D) : ℕ := ∑ t, (s.todo t).length

omit [DecidableEq L] in
lemma left_update {op : LockOp L A} {rest : List (LockOp L A)} (htodo : s.todo t = op :: rest)
    (owner : L → Option T) (d : D) :
    (⟨owner, d, Function.update s.todo t rest⟩ : LockState T L A D).left < s.left := by
  show ∑ u, (Function.update s.todo t rest u).length < ∑ u, (s.todo u).length
  refine Finset.sum_lt_sum (fun u _ => ?_) ⟨t, Finset.mem_univ t, ?_⟩
  · by_cases hu : u = t
    · subst hu
      rw [Function.update_self, htodo, List.length_cons]
      exact Nat.le_succ _
    · rw [Function.update_of_ne hu]
  · rw [Function.update_self, htodo, List.length_cons]
    exact Nat.lt_succ_self _

lemma LockStep.left_lt (h : LockStep exec t s s') : s'.left < s.left := by
  cases h with
  | lock htodo _ => exact left_update htodo _ _
  | unlock htodo _ => exact left_update htodo _ _
  | act htodo => exact left_update htodo _ _

/-- A run takes no more steps than the programs have operations. -/
theorem lock_trace_length {tr : List (T × LockState T L A D)}
    (h : Trace (lockSystem exec data prog) tr s) : tr.length ≤ ∑ t, (prog t).length := by
  rcases h.length_le_measure (μ := LockState.left) fun _ _ _ _ hstep => hstep.left_lt with
    ⟨s₀, rfl, hle⟩
  exact le_trans (Nat.le_add_right _ _) hle

end

/-! ## Lock order -/

section

variable [PartialOrder L]

/-- A thread that holds `held` takes the mutexes of `ops` in order and gives them all back. -/
def Disciplined : Finset L → List (LockOp L A) → Prop
  | held, [] => held = ∅
  | held, .lock l :: ops => (∀ k ∈ held, k < l) ∧ Disciplined (insert l held) ops
  | held, .unlock l :: ops => l ∈ held ∧ Disciplined (held.erase l) ops
  | held, .act _ :: ops => Disciplined held ops

/-- A thread that takes no mutex. -/
lemma disciplined_replicate (k : ℕ) (a : A) :
    Disciplined (∅ : Finset L) (List.replicate k (.act a)) := by
  induction k with
  | zero => rfl
  | succ k ih => exact ih

/-- The next thing the program does to `l` is to give it back. -/
def Inside (l : L) : List (LockOp L A) → Prop
  | [] => False
  | .lock k :: ops => k ≠ l ∧ Inside l ops
  | .unlock k :: ops => k = l ∨ Inside l ops
  | .act _ :: ops => Inside l ops

/-- A disciplined thread holds a mutex exactly between taking it and giving it back. -/
lemma Disciplined.inside_iff {held : Finset L} {ops : List (LockOp L A)} {l : L}
    (h : Disciplined held ops) : Inside l ops ↔ l ∈ held := by
  induction ops generalizing held with
  | nil =>
      obtain rfl : held = ∅ := h
      simp [Inside]
  | cons op ops ih =>
      cases op with
      | lock k =>
          have hk : k ∉ held := fun hmem => lt_irrefl k (h.1 k hmem)
          rw [Inside, ih h.2, Finset.mem_insert]
          constructor
          · rintro ⟨hkl, rfl | hl⟩
            · exact absurd rfl hkl
            · exact hl
          · intro hl
            refine ⟨?_, Or.inr hl⟩
            rintro rfl
            exact hk hl
      | unlock k =>
          rw [Inside, ih h.2, Finset.mem_erase]
          constructor
          · rintro (rfl | ⟨_, hl⟩)
            · exact h.1
            · exact hl
          · intro hl
            by_cases hkl : k = l
            · exact Or.inl hkl
            · exact Or.inr ⟨Ne.symm hkl, hl⟩
      | act a => exact ih h

/-- `held t` is what thread `t` holds, and its program agrees. -/
structure Orderly (s : LockState T L A D) (held : T → Finset L) : Prop where
  disciplined : ∀ t, Disciplined (held t) (s.todo t)
  owner : ∀ l t, s.owner l = some t ↔ l ∈ held t

variable {exec : A → D → D} {s s' : LockState T L A D} {held : T → Finset L} {t u : T} {data : D}
  {prog : T → List (LockOp L A)} {l : L}

/-- The other threads keep their mutexes and their programs. -/
lemma Orderly.update {owner : L → Option T} {d : D} {rest : List (LockOp L A)}
    (h : Orderly s held) (mine : Finset L) (hrest : Disciplined mine rest)
    (hmine : ∀ l, owner l = some t ↔ l ∈ mine)
    (hothers : ∀ l u, u ≠ t → (owner l = some u ↔ s.owner l = some u)) :
    Orderly ⟨owner, d, Function.update s.todo t rest⟩ (Function.update held t mine) := by
  constructor
  · intro u
    by_cases hu : u = t
    · subst hu
      simpa using hrest
    · simpa [Function.update_of_ne hu] using h.disciplined u
  · intro l u
    by_cases hu : u = t
    · subst hu
      simpa using hmine l
    · rw [Function.update_of_ne hu, hothers l u hu, h.owner]

/-- **Step.** -/
lemma Orderly.step (h : Orderly s held) (hstep : LockStep exec t s s') : ∃ held', Orderly s' held' := by
  cases hstep with
  | @lock l rest htodo hfree =>
      have hd := h.disciplined t
      rw [htodo] at hd
      refine ⟨_, h.update _ hd.2 (fun k => ?_) fun k u hu => ?_⟩
      · by_cases hk : k = l
        · subst hk
          simp
        · rw [Function.update_of_ne hk, h.owner, Finset.mem_insert]
          simp [hk]
      · by_cases hk : k = l
        · subst hk
          simp [hfree, Ne.symm hu]
        · rw [Function.update_of_ne hk]
  | @unlock l rest htodo hmine =>
      have hd := h.disciplined t
      rw [htodo] at hd
      refine ⟨_, h.update _ hd.2 (fun k => ?_) fun k u hu => ?_⟩
      · by_cases hk : k = l
        · subst hk
          simp
        · rw [Function.update_of_ne hk, h.owner, Finset.mem_erase]
          simp [hk]
      · by_cases hk : k = l
        · subst hk
          simp [hmine, Ne.symm hu]
        · rw [Function.update_of_ne hk]
  | @act a rest htodo =>
      have hd := h.disciplined t
      rw [htodo] at hd
      exact ⟨_, h.update (held t) hd (fun k => h.owner k t) fun _ _ _ => Iff.rfl⟩

/-- **Run.** -/
lemma orderly_of_reachable (hprog : ∀ t, Disciplined ∅ (prog t))
    (h : Reachable (lockSystem exec data prog) s) : ∃ held, Orderly s held := by
  refine h.invariant (I := fun s => ∃ held, Orderly s held) ?_ ?_
  · rintro s rfl
    refine ⟨fun _ => ∅, hprog, fun l t => ?_⟩
    simp
  · rintro t s s' ⟨held, hord⟩ hstep
    exact hord.step hstep

/-- **Mutual exclusion.** -/
theorem locks_exclude (hprog : ∀ t, Disciplined ∅ (prog t))
    (h : Reachable (lockSystem exec data prog) s) (ht : Inside l (s.todo t)) (hu : Inside l (s.todo u)) :
    t = u := by
  obtain ⟨held, hord⟩ := orderly_of_reachable hprog h
  have ht' := (hord.owner l t).mpr ((hord.disciplined t).inside_iff.mp ht)
  rw [(hord.owner l u).mpr ((hord.disciplined u).inside_iff.mp hu)] at ht'
  exact (Option.some.inj ht').symm

/-- **No deadlock.**  As long as a thread has something to do, some thread can move. -/
theorem locks_exists_step [WellFoundedGT L] (hprog : ∀ t, Disciplined ∅ (prog t))
    (h : Reachable (lockSystem exec data prog) s) (ht : s.todo t ≠ []) :
    ∃ u s', LockStep exec u s s' := by
  obtain ⟨held, hord⟩ := orderly_of_reachable hprog h
  -- upwards along the order, from the mutex that a thread waits for to the one its holder waits for
  have hwait : ∀ l u rest, s.todo u = .lock l :: rest → ∃ u s', LockStep exec u s s' := by
    intro l
    induction l using WellFoundedGT.induction with
    | ind l ih =>
        intro u rest hu
        cases hown : s.owner l with
        | none => exact ⟨u, _, .lock hu hown⟩
        | some v =>
            have hheld := (hord.owner l v).mp hown
            have hd := hord.disciplined v
            cases hv : s.todo v with
            | nil =>
                rw [hv] at hd
                have hempty : held v = ∅ := hd
                rw [hempty] at hheld
                exact absurd hheld (Finset.notMem_empty l)
            | cons op ops =>
                rw [hv] at hd
                cases op with
                | lock k => exact ih k (hd.1 l hheld) v ops hv
                | unlock k => exact ⟨v, _, .unlock hv ((hord.owner k v).mpr hd.1)⟩
                | act a => exact ⟨v, _, .act hv⟩
  have hd := hord.disciplined t
  cases hops : s.todo t with
  | nil => exact absurd hops ht
  | cons op ops =>
      rw [hops] at hd
      cases op with
      | lock k => exact hwait k t ops hops
      | unlock k => exact ⟨t, _, .unlock hops ((hord.owner k t).mpr hd.1)⟩
      | act a => exact ⟨t, _, .act hops⟩

/-- When nobody can move, everybody is done and every mutex is free. -/
theorem locks_stuck [WellFoundedGT L] (hprog : ∀ t, Disciplined ∅ (prog t))
    (h : Reachable (lockSystem exec data prog) s) (hstuck : Stuck (lockSystem exec data prog) s) :
    (∀ t, s.todo t = []) ∧ ∀ l, s.owner l = none := by
  have hdone : ∀ t, s.todo t = [] := by
    intro t
    by_contra ht
    rcases locks_exists_step hprog h ht with ⟨u, s', hstep⟩
    exact hstuck u s' hstep
  refine ⟨hdone, fun l => ?_⟩
  obtain ⟨held, hord⟩ := orderly_of_reachable hprog h
  rw [Option.eq_none_iff_forall_ne_some]
  intro t ht
  have hheld := (hord.owner l t).mp ht
  rw [← (hord.disciplined t).inside_iff, hdone t] at hheld
  exact hheld

end

/-! ## Atomicity -/

section

/-- A critical section of `l`. -/
def critical (l : L) (sec : List A) : List (LockOp L A) :=
  .lock l :: (sec.map .act ++ [.unlock l])

/-- A section in one go. -/
def runSection (exec : A → D → D) (sec : List A) (d : D) : D := sec.foldl (fun d a => exec a d) d

/-- Sections one after the other. -/
def runSections (exec : A → D → D) (log : List (T × List A)) (d : D) : D :=
  log.foldl (fun d e => runSection exec e.2 d) d

/-- The sections a thread has in the log. -/
def sectionsOf (t : T) (log : List (T × List A)) : List (List A) :=
  (log.filter fun e => e.1 = t).map Prod.snd

/-- The sections of `log` have begun, in this order.  Thread `t` has `rest t` before it, the holder
of the mutex in addition the part `cur` of its section; with that part the data is what the sections
of `log` make of it. -/
structure Serial (exec : A → D → D) (l : L) (data : D) (sections : T → List (List A)) (s : LockState T L A D)
    (log : List (T × List A)) (rest : T → List (List A)) (cur : List A) :
    Prop where
  begun : ∀ t, sectionsOf t log ++ rest t = sections t
  outside : ∀ t, s.owner l ≠ some t → s.todo t = (rest t).flatMap (critical l)
  holder : ∀ t, s.owner l = some t →
    s.todo t = cur.map .act ++ .unlock l :: (rest t).flatMap (critical l)
  data : runSection exec cur s.data = runSections exec log data
  free : s.owner l = none → cur = []

variable {exec : A → D → D} {l : L} {data : D} {sections : T → List (List A)} {s s' : LockState T L A D}
  {log : List (T × List A)} {rest : T → List (List A)} {cur : List A} {t : T}

/-- **Step.** -/
lemma Serial.step (h : Serial exec l data sections s log rest cur) (hstep : LockStep exec t s s') :
    ∃ log' rest' cur', Serial exec l data sections s' log' rest' cur' := by
  by_cases hown : s.owner l = some t
  · have hholder := h.holder t hown
    cases cur with
    | nil =>
        -- the section is over, and the mutex is given back
        refine ⟨log, rest, [], ?_⟩
        cases hstep with
        | lock htodo _ | act htodo => rw [htodo] at hholder; cases hholder
        | @unlock k ops htodo hmine =>
            rw [htodo] at hholder
            cases hholder
            refine ⟨h.begun, fun u _ => ?_, fun u hu => ?_, h.data, fun _ => rfl⟩
            · by_cases hut : u = t
              · subst hut
                exact Function.update_self _ _ _
              · show Function.update s.todo t _ u = _
                rw [Function.update_of_ne hut]
                refine h.outside u fun hu => hut ?_
                rw [hown] at hu
                exact (Option.some.inj hu).symm
            · simp at hu
    | cons a as =>
        -- the next action of the section
        refine ⟨log, rest, as, ?_⟩
        cases hstep with
        | lock htodo _ | unlock htodo _ => rw [htodo] at hholder; cases hholder
        | @act b ops htodo =>
            rw [htodo] at hholder
            cases hholder
            refine ⟨h.begun, fun u hu => ?_, fun u hu => ?_, h.data, fun hnone => ?_⟩
            · have hut : u ≠ t := by
                rintro rfl
                exact hu hown
              show Function.update s.todo t _ u = _
              rw [Function.update_of_ne hut]
              exact h.outside u hu
            · have hut : u = t := by
                have hu' : s.owner l = some u := hu
                rw [hown] at hu'
                exact (Option.some.inj hu').symm
              subst hut
              exact Function.update_self _ _ _
            · have hnone' : s.owner l = none := hnone
              rw [hown] at hnone'
              cases hnone'
  · -- a thread outside can only take the mutex
    have houtside := h.outside t hown
    cases hrest : rest t with
    | nil =>
        rw [hrest] at houtside
        cases hstep with
        | lock htodo _ | unlock htodo _ | act htodo => rw [htodo] at houtside; cases houtside
    | cons sec later =>
        rw [hrest, List.flatMap_cons, critical, List.cons_append] at houtside
        cases hstep with
        | unlock htodo _ | act htodo => rw [htodo] at houtside; cases houtside
        | @lock k ops htodo hfree =>
            rw [htodo] at houtside
            cases houtside
            have hcur := h.free hfree
            refine ⟨log ++ [(t, sec)], Function.update rest t later, sec, fun u => ?_, fun u hu => ?_,
              fun u hu => ?_, ?_, fun hnone => ?_⟩
            · by_cases hut : u = t
              · subst hut
                rw [← h.begun u, hrest, Function.update_self, sectionsOf, List.filter_append,
                  List.map_append, List.append_assoc]
                simp [sectionsOf]
              · rw [← h.begun u, Function.update_of_ne hut, sectionsOf, List.filter_append]
                simp [sectionsOf, Ne.symm hut]
            · have hut : u ≠ t := by
                rintro rfl
                exact hu (Function.update_self _ _ _)
              show Function.update s.todo t _ u = _
              rw [Function.update_of_ne hut, Function.update_of_ne hut]
              refine h.outside u ?_
              rw [hfree]
              exact fun hsome => by cases hsome
            · have hut : t = u := by simpa using hu
              subst hut
              show Function.update s.todo t _ t = _
              rw [Function.update_self, Function.update_self, List.append_assoc]
              rfl
            · have hdata := h.data
              rw [hcur] at hdata
              rw [runSections, List.foldl_append]
              exact congrArg (runSection exec sec) hdata
            · simp at hnone

/-- **Critical sections are atomic.**  Whenever the mutex is free, the data is what the sections
that have begun make of it, run one after the other, each thread's in its own order. -/
theorem sections_serialize (h : Reachable
      (lockSystem exec data fun t => (sections t).flatMap (critical l)) s) (hfree : s.owner l = none) :
    ∃ log, s.data = runSections exec log data
      ∧ ∀ t, ∃ rest, sectionsOf t log ++ rest = sections t
        ∧ s.todo t = rest.flatMap (critical l) := by
  have hserial := h.invariant
    (I := fun s => ∃ log rest cur, Serial exec l data sections s log rest cur) ?_ ?_
  · obtain ⟨log, rest, cur, hs⟩ := hserial
    refine ⟨log, ?_, fun t => ⟨rest t, hs.begun t, hs.outside t ?_⟩⟩
    · have hdata := hs.data
      rw [hs.free hfree] at hdata
      exact hdata
    · rw [hfree]
      exact fun hsome => by cases hsome
  · rintro s rfl
    refine ⟨[], sections, [], fun t => rfl, fun t _ => rfl, fun t ht => ?_, rfl, fun _ => rfl⟩
    cases ht
  · rintro t s s' ⟨log, rest, cur, hs⟩ hstep
    exact hs.step hstep

/-- The log counts the sections of all threads. -/
lemma length_eq_sum_sectionsOf [Fintype T] (log : List (T × List A)) :
    log.length = ∑ t, (sectionsOf t log).length := by
  induction log with
  | nil => simp [sectionsOf]
  | cons e log ih =>
      have hcons : ∀ t, (sectionsOf t (e :: log)).length
          = (sectionsOf t log).length + if e.1 = t then 1 else 0 := by
        intro t
        by_cases het : e.1 = t
        · simp [sectionsOf, het]
        · simp [sectionsOf, het]
      rw [List.length_cons, ih, Finset.sum_congr rfl fun t _ => hcons t, Finset.sum_add_distrib,
        Finset.sum_ite_eq, if_pos (Finset.mem_univ _)]

/-- A program made of critical sections of one mutex is disciplined. -/
lemma disciplined_sections [PartialOrder L] (l : L) (secs : List (List A)) :
    Disciplined ∅ (secs.flatMap (critical l)) := by
  have hacts : ∀ (sec : List A) (ops : List (LockOp L A)), Disciplined ∅ ops →
      Disciplined {l} (sec.map .act ++ .unlock l :: ops) := by
    intro sec ops hops
    induction sec with
    | nil => exact ⟨Finset.mem_singleton_self l, by simpa using hops⟩
    | cons a sec ih => exact ih
  induction secs with
  | nil => rfl
  | cons sec secs ih =>
      rw [List.flatMap_cons, critical, List.cons_append, List.append_assoc]
      refine ⟨fun k hk => absurd hk (Finset.notMem_empty k), ?_⟩
      rw [insert_empty_eq]
      exact hacts sec _ ih

end

/-! ## Conservation -/

section

variable {M : Type} [AddCommMonoid M] [Fintype T] {exec : A → D → D} {s s' : LockState T L A D}
  {data : D} {prog : T → List (LockOp L A)} {t : T}

/-- What an operation adds. -/
def LockOp.weight (w : A → M) : LockOp L A → M
  | .lock _ => 0
  | .unlock _ => 0
  | .act a => w a

/-- What the operations still to come will add. -/
def LockState.pending (w : A → M) (s : LockState T L A D) : M :=
  ∑ t, ((s.todo t).map (LockOp.weight w)).sum

omit [DecidableEq L] in
lemma pending_update (w : A → M) {op : LockOp L A} {rest : List (LockOp L A)}
    (htodo : s.todo t = op :: rest) (owner : L → Option T) (d : D) :
    s.pending w = op.weight w
      + (⟨owner, d, Function.update s.todo t rest⟩ : LockState T L A D).pending w := by
  have hrest : ∀ u ∈ Finset.univ.erase t,
      ((Function.update s.todo t rest u).map (LockOp.weight w)).sum
        = ((s.todo u).map (LockOp.weight w)).sum := by
    intro u hu
    rw [Function.update_of_ne (Finset.ne_of_mem_erase hu)]
  show ∑ u, ((s.todo u).map (LockOp.weight w)).sum
    = op.weight w + ∑ u, ((Function.update s.todo t rest u).map (LockOp.weight w)).sum
  rw [← Finset.add_sum_erase _ _ (Finset.mem_univ t),
    ← Finset.add_sum_erase _ (fun u => ((Function.update s.todo t rest u).map _).sum)
      (Finset.mem_univ t), Finset.sum_congr rfl hrest, Function.update_self, htodo, List.map_cons,
    List.sum_cons, add_assoc]

/-- **Conservation.** -/
theorem acts_conserve {φ : D → M} {w : A → M} (hw : ∀ a d, φ (exec a d) = φ d + w a)
    (h : Reachable (lockSystem exec data prog) s) :
    φ s.data + s.pending w = φ data + ∑ t, ((prog t).map (LockOp.weight w)).sum := by
  refine h.invariant (I := fun s => φ s.data + s.pending w
    = φ data + ∑ t, ((prog t).map (LockOp.weight w)).sum) ?_ ?_
  · rintro s rfl
    rfl
  · intro t s s' hinv hstep
    rw [← hinv]
    cases hstep with
    | lock htodo _ => rw [pending_update w htodo, LockOp.weight, zero_add]
    | unlock htodo _ => rw [pending_update w htodo, LockOp.weight, zero_add]
    | act htodo => rw [pending_update w htodo, LockOp.weight, hw, add_assoc]

end

end

end CExercises
