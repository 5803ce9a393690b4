import CExercises.Semaphores.Def
import Mathlib.Algebra.BigOperators.Ring.Finset
import Mathlib.Algebra.Order.BigOperators.Group.Finset

/-!
# The pool is never overdrawn

The value of the semaphore and the workers that hold a resource are together the size of the pool,
whatever the order of the steps.  In the output a resource shows for a shorter time than it is held:
the line `using` comes after `sem_wait`, the line `releasing` before `sem_post`.  So at every point
of the output no more resources are in use than there are.

A worker can only be stopped by a value of 0, and then somebody holds a resource and can move.
-/

namespace CExercises.Semaphores

/-- The resources a worker holds. -/
def Pc.holds : Pc → ℕ
  | .acquired | .working | .releasing => 1
  | .waiting | .done => 0

/-- The resources a worker holds according to the output. -/
def Pc.shows : Pc → ℕ
  | .working => 1
  | .waiting | .acquired | .releasing | .done => 0

/-- The lines a worker has printed. -/
def Pc.printed : Pc → List Line
  | .waiting | .acquired => []
  | .working => [.uses]
  | .releasing | .done => [.uses, .releases]

/-- The steps a worker has before it. -/
def Pc.rank : Pc → ℕ
  | .waiting => 4
  | .acquired => 3
  | .working => 2
  | .releasing => 1
  | .done => 0

/-- What a line says about the resources in use. -/
def Line.sign : Line → ℤ
  | .uses => 1
  | .releases => -1

section

variable {W : Type}

/-- The resources in use after this output. -/
def inUse (out : List (W × Line)) : ℤ := (out.map fun e => e.2.sign).sum

lemma inUse_append (out out' : List (W × Line)) : inUse (out ++ out') = inUse out + inUse out' := by
  simp [inUse]

/-- A property of an output and of every line more of it holds at every point of the output. -/
lemma prefix_concat {P : List (W × Line) → Prop} {out : List (W × Line)} {e : W × Line}
    (h : ∀ pre, pre <+: out → P pre) (hlast : P (out ++ [e])) : ∀ pre, pre <+: out ++ [e] → P pre := by
  intro pre hpre
  rcases List.prefix_concat_iff.mp hpre with rfl | hpre
  · exact hlast
  · exact h pre hpre

variable [DecidableEq W]

/-- The lines of one worker. -/
def linesOf (w : W) (out : List (W × Line)) : List Line :=
  (out.filter fun e => e.1 = w).map Prod.snd

variable [Fintype W] {size : ℕ} {s s' : State W} {w : W}

/-- What every interleaving preserves. -/
structure Inv (size : ℕ) (s : State W) : Prop where
  total : s.value + ∑ w, (s.pc w).holds = size
  shown : inUse s.out = ∑ w, ((s.pc w).shows : ℤ)
  lines : ∀ w, linesOf w s.out = (s.pc w).printed
  bounded : ∀ pre, pre <+: s.out → inUse pre ≤ size

omit [Fintype W] in
lemma linesOf_append (u w : W) (out : List (W × Line)) (ls : List Line) :
    linesOf u (out ++ ls.map (w, ·)) = linesOf u out ++ if w = u then ls else [] := by
  have hnew : linesOf u (ls.map (w, ·)) = if w = u then ls else [] := by
    induction ls with
    | nil => simp [linesOf]
    | cons l ls ih => by_cases h : w = u <;> simp_all [linesOf]
  rw [← hnew, linesOf, linesOf, linesOf, List.filter_append, List.map_append]

/-- What shows of a worker is what its lines say. -/
lemma shows_eq (pc : Pc) : (pc.shows : ℤ) = (pc.printed.map Line.sign).sum := by
  cases pc <;> rfl

lemma shows_le_holds (pc : Pc) : pc.shows ≤ pc.holds := by
  cases pc <;> decide

/-- **One worker moves.**  What it takes from the semaphore it holds, and what it prints it has
printed. -/
lemma Inv.move (h : Inv size s) {value : ℕ} (new : Pc) (line : Option Line)
    (hvalue : value + new.holds = s.value + (s.pc w).holds)
    (hprinted : new.printed = (s.pc w).printed ++ line.toList) :
    Inv size ⟨value, Function.update s.pc w new, s.out ++ line.toList.map (w, ·)⟩ := by
  have hholds := sum_moved Pc.holds s.pc w new
  have hshows := sum_moved (fun pc => (pc.shows : ℤ)) s.pc w new
  have htotal : value + ∑ u, (Function.update s.pc w new u).holds = size := by
    rw [← h.total]
    omega
  have hshown : inUse (s.out ++ line.toList.map (w, ·))
      = ∑ u, ((Function.update s.pc w new u).shows : ℤ) := by
    have hnew := shows_eq new
    rw [hprinted, List.map_append, List.sum_append, ← shows_eq] at hnew
    have hline : inUse (line.toList.map (w, ·)) = (line.toList.map Line.sign).sum := by
      cases line <;> rfl
    rw [inUse_append, h.shown, hline]
    omega
  have hle : inUse (s.out ++ line.toList.map (w, ·)) ≤ size := by
    have hsum : ∑ u, (Function.update s.pc w new u).shows
        ≤ ∑ u, (Function.update s.pc w new u).holds :=
      Finset.sum_le_sum fun u _ => shows_le_holds _
    rw [hshown, ← Nat.cast_sum]
    omega
  refine ⟨htotal, hshown, fun u => ?_, ?_⟩
  · show linesOf u (s.out ++ _) = (Function.update s.pc w new u).printed
    rw [linesOf_append, h.lines u]
    by_cases hu : w = u
    · subst hu
      rw [if_pos rfl, Function.update_self, hprinted]
    · rw [if_neg hu, List.append_nil, Function.update_of_ne (Ne.symm hu)]
  · cases line with
    | none => simpa using h.bounded
    | some l => exact prefix_concat h.bounded hle

/-- **Step.** -/
lemma Inv.step (h : Inv size s) (hstep : Step w s s') : Inv size s' := by
  cases hstep with
  | wait hpc hvalue =>
      have hmove := h.move (w := w) .acquired none (by rw [hpc, hvalue]; rfl)
        (by rw [hpc]; rfl)
      simpa using hmove
  | use hpc => exact h.move .working (some .uses) (by rw [hpc]; rfl) (by rw [hpc]; rfl)
  | release hpc => exact h.move .releasing (some .releases) (by rw [hpc]; rfl) (by rw [hpc]; rfl)
  | post hpc =>
      have hmove := h.move (w := w) .done none (by rw [hpc]; rfl)
        (by rw [hpc]; rfl)
      simpa using hmove

/-- **Run.** -/
lemma inv_of_reachable (h : Reachable (pool size) s) : Inv size s := by
  refine h.invariant ?_ fun w s s' hinv hstep => hinv.step hstep
  rintro s rfl
  refine ⟨by simp [Pc.holds], by simp [inUse, Pc.shows], fun w => rfl, fun pre hpre => ?_⟩
  rw [List.prefix_nil.mp hpre]
  exact Int.natCast_nonneg _

/-- The steps that the workers have before them. -/
def State.rank (s : State W) : ℕ := ∑ w, (s.pc w).rank

lemma Step.rank_lt (h : Step w s s') : s'.rank < s.rank := by
  have hmove : ∀ new : Pc, new.rank < (s.pc w).rank →
      ∑ u, (Function.update s.pc w new u).rank < s.rank := by
    intro new hlt
    have hrank := sum_moved Pc.rank s.pc w new
    unfold State.rank
    omega
  cases h with
  | wait hpc _ | use hpc | release hpc | post hpc =>
      refine hmove _ ?_
      rw [hpc]
      decide

/-- **Nobody waits for ever.** -/
lemma Inv.exists_step (h : Inv size s) (hpos : 1 ≤ size) (hw : s.pc w ≠ .done) :
    ∃ u s', Step u s s' := by
  by_cases hholder : ∃ u, (s.pc u).holds ≠ 0
  · -- whoever has a resource can go on
    rcases hholder with ⟨u, hu⟩
    cases hpc : s.pc u with
    | waiting | done => exact absurd (by rw [hpc]; rfl) hu
    | acquired => exact ⟨u, _, .use hpc⟩
    | working => exact ⟨u, _, .release hpc⟩
    | releasing => exact ⟨u, _, .post hpc⟩
  · -- nobody has one, so that they are all there
    push Not at hholder
    have htotal := h.total
    rw [Finset.sum_eq_zero fun u _ => hholder u, add_zero] at htotal
    have hnone := hholder w
    cases hpc : s.pc w with
    | waiting => exact ⟨w, _, .wait hpc (show s.value = (size - 1) + 1 by omega)⟩
    | done => exact absurd hpc hw
    | acquired | working | releasing => rw [hpc] at hnone; cases hnone

omit [Fintype W] in
lemma reachable_step {size : ℕ} {w : W} {s s' : State W} (h : Reachable (pool size) s)
    (hstep : Step w s s') : Reachable (pool size) s' :=
  h.step w hstep

end

end CExercises.Semaphores
