import CExercises.Core.Block
import CExercises.StackQueue.BfsDef
import CExercises.StackQueue.QueueRefinement
import Mathlib.Algebra.Order.Ring.Int

/-!
# `bfs_order` prints the tree level by level

When the loop is about to dequeue `a`, the queue holds the numbers from `a` to `2 * a - 1`, cut off
at `n`: all children of the nodes before `a`, of which the ones before `a` have been dequeued in
turn.  This interval spans two levels, so the queue alone does not say where a level ends.  The
counters do: a level is left when as many nodes were printed as the queue held when it was entered,
and at that moment the queue is exactly the next level.

`BfsInv n k a` is this for a loop that stands at `a` on level `k`.  In `a`, `n` and `2 ^ k` all of
it is linear.
-/

namespace CExercises.StackQueue

variable {M : Malloc Node} {q : QueueState} {vs : List ℤ} {v n a : ℤ} {k : ℕ} {s : BfsState}

/-! ## The queue as a list -/

lemma QueueHolds.enqueue (h : QueueHolds q vs) (v : ℤ) (hroom : (vs.length : ℤ) < INT_MAX) :
    ∃ q', queueEnqueue M q v = .ok q' ∧ QueueHolds q' (vs ++ [v]) := by
  obtain ⟨xs, hinv, rfl⟩ := h
  obtain ⟨q', hrun, hinv'⟩ := hinv.enqueue (M := M) v (by simpa [payloads] using hroom)
  exact ⟨q', hrun, _, hinv', by simp⟩

lemma QueueHolds.dequeue (h : QueueHolds q (v :: vs)) :
    ∃ q', queueDequeue q = .ok (v, q') ∧ QueueHolds q' vs := by
  obtain ⟨xs, hinv, hxs⟩ := h
  cases xs with
  | nil => cases hxs
  | cons x xs =>
      obtain ⟨rfl, rfl⟩ := List.cons.inj hxs
      obtain ⟨q', hrun, hinv'⟩ := hinv.dequeue
      exact ⟨q', hrun, xs, hinv', rfl⟩

lemma QueueHolds.size_eq (h : QueueHolds q vs) : q.queue.size = vs.length := by
  obtain ⟨xs, hinv, rfl⟩ := h
  rw [hinv.size]
  simp [payloads]

/-! ## Intervals -/

/-- The numbers `lo..hi`. -/
def span (lo hi : ℤ) : List ℤ := seg (fun v => v) lo hi

lemma length_span (lo hi : ℤ) : (span lo hi).length = (hi + 1 - lo).toNat := length_seg _ _ _

lemma span_concat {lo hi : ℤ} (h : lo ≤ hi) : span lo hi = span lo (hi - 1) ++ [hi] :=
  seg_concat h

lemma QueueHolds.isEmpty_iff {lo hi : ℤ} (h : QueueHolds q (span lo hi)) :
    queueIsEmpty q.queue = true ↔ hi < lo := by
  rw [queueIsEmpty, beq_iff_eq, h.size_eq, length_span]
  omega

/-- A child that is cut off at `n` extends an interval that is. -/
lemma enqueueChild_eq (h : QueueHolds q (span a (min v n))) (hav : a ≤ v + 1) (ha : 1 ≤ a)
    (hn : n < 1073741824) :
    ∃ q', enqueueChild M n q (v + 1) = .ok q' ∧ QueueHolds q' (span a (min (v + 1) n)) := by
  unfold enqueueChild
  split_ifs with hle
  · have hspan : span a (min (v + 1) n) = span a (min v n) ++ [v + 1] := by
      rw [min_eq_left hle, min_eq_left (by omega), span_concat hav, show v + 1 - 1 = v by omega]
    rw [hspan]
    refine h.enqueue _ ?_
    rw [length_span]
    unfold INT_MAX
    omega
  · rw [min_eq_right (by omega)]
    rw [min_eq_right (by omega)] at h
    exact ⟨q, rfl, h⟩

/-! ## The loop -/

/-- What is printed for level `k`. -/
def line (n : ℤ) (k : ℕ) : List Printed :=
  .level k :: (span (2 ^ k) (min (2 ^ (k + 1) - 1) n)).map .node ++ [.newline]

/-- The loop is about to dequeue `a` on level `k`, or has dequeued all when `a = n + 1`. -/
structure BfsInv (n : ℤ) (k : ℕ) (a : ℤ) (s : BfsState) : Prop where
  le : 2 ^ k ≤ a
  le_end : a ≤ min (2 * 2 ^ k) (n + 1)
  at_end : a = 2 * 2 ^ k → a = n + 1
  level_le : 2 ^ k ≤ n
  queue : QueueHolds s.q (span a (min (2 * a - 1) n))
  level : s.level = k
  inLevel : s.inLevel = min (2 * 2 ^ k) (n + 1) - 2 ^ k
  printed : s.printed = a - 2 ^ k
  out : s.out = (List.range k).flatMap (line n) ++ .level k :: (span (2 ^ k) (a - 1)).map .node

lemma lt_two_pow (k : ℕ) : (k : ℤ) < 2 ^ k := by
  exact_mod_cast Nat.lt_two_pow_self

/-- A pass up to the test whether the level is over. -/
lemma bfsPass_eq (hqueue : QueueHolds s.q (span a (min (2 * a - 1) n))) (ha : 1 ≤ a) (han : a ≤ n)
    (hn : n < 1073741824) (hprinted : s.printed < INT_MAX) :
    ∃ q, QueueHolds q (span (a + 1) (min (2 * a + 1) n))
      ∧ bfsPass M n s =
        if s.printed + 1 = s.inLevel ∧ queueIsEmpty q.queue = false then do
          let level ← intSucc s.level
          return { q := q, level := level, inLevel := q.queue.size, printed := 0,
                   out := s.out ++ [.node a] ++ [.newline, .level level] }
        else return { s with q := q, printed := s.printed + 1, out := s.out ++ [.node a] } := by
  have hmax : INT_MAX = 2147483647 := rfl
  have hmin : INT_MIN = -2147483648 := rfl
  have hcons : span a (min (2 * a - 1) n) = a :: span (a + 1) (min (2 * a - 1) n) :=
    seg_cons (by omega)
  rw [hcons] at hqueue
  obtain ⟨q₁, hdeq, hq₁⟩ := hqueue.dequeue
  obtain ⟨q₂, hleft, hq₂⟩ := enqueueChild_eq (M := M) hq₁ (by omega) (by omega) hn
  obtain ⟨q₃, hright, hq₃⟩ := enqueueChild_eq (M := M) hq₂ (by omega) (by omega) hn
  rw [show 2 * a - 1 + 1 = 2 * a by omega] at hleft hright hq₃
  have hmul : intMul 2 a = .ok (2 * a) := if_pos ⟨by omega, by omega⟩
  have hadd : intAdd (2 * a) 1 = .ok (2 * a + 1) := if_pos ⟨by omega, by omega⟩
  refine ⟨q₃, hq₃, ?_⟩
  simp only [bfsPass, hdeq, intSucc_eq hprinted, hmul, hadd, hleft, hright, ok_bind]

/-- **One pass.**  The level ends with `a` when the next number is the first of the next level. -/
lemma BfsInv.pass (h : BfsInv n k a s) (han : a ≤ n) (hn : n < 1073741824) :
    ∃ s' k', bfsPass M n s = .ok s' ∧ BfsInv n k' (a + 1) s' := by
  have hmax : INT_MAX = 2147483647 := rfl
  have hk := lt_two_pow k
  have hpow := pow_succ' (2 : ℤ) k
  obtain ⟨hle, hend, hat, hlevel, hqueue, hlev, hin, hprinted, hout⟩ := h
  obtain ⟨q, hq, hpass⟩ := bfsPass_eq (M := M) hqueue (by omega) han hn (by omega)
  rw [hpass]
  have hmore : queueIsEmpty q.queue = false ↔ a + 1 ≤ n := by
    rw [← Bool.not_eq_true, hq.isEmpty_iff]
    omega
  split_ifs with hover
  · -- the next number is `2 ^ (k + 1)`, and the queue is the next level
    rw [hmore] at hover
    have hnext : a + 1 = 2 * 2 ^ k := by omega
    refine ⟨_, k + 1, by rw [intSucc_eq (by omega), ok_bind, pure_eq_ok], ?_⟩
    exact
      { le := by omega
        le_end := by omega
        at_end := by omega
        level_le := by omega
        queue := by
          rw [show 2 * (a + 1) - 1 = 2 * a + 1 by omega]
          exact hq
        level := by simp [hlev]
        inLevel := by
          simp only [hq.size_eq, length_span]
          omega
        printed := by
          simp only
          omega
        out := by
          have hline : min (2 ^ (k + 1) - 1) n = a := by omega
          have hnone : span (2 ^ (k + 1)) (a + 1 - 1) = [] := seg_nil (by omega)
          simp only [hout, hlev, List.range_succ, List.flatMap_append, List.flatMap_singleton,
            line, hline, hnone, span_concat hle]
          simp }
  · rw [hmore] at hover
    refine ⟨_, k, rfl, ?_⟩
    exact
      { le := by omega
        le_end := by omega
        at_end := by omega
        level_le := hlevel
        queue := by
          rw [show 2 * (a + 1) - 1 = 2 * a + 1 by omega]
          exact hq
        level := hlev
        inLevel := hin
        printed := by
          simp only
          omega
        out := by
          simp only [hout, show a + 1 - 1 = a by omega, span_concat hle]
          simp }

/-- **The whole loop**, which takes one pass for each number. -/
lemma BfsInv.loop (hn : n < 1073741824) (fuel : ℕ) (h : BfsInv n k a s) (hfuel : n + 1 - a < fuel) :
    ∃ s' k', bfsLoop M n fuel s = .ok s' ∧ BfsInv n k' (n + 1) s' := by
  induction fuel generalizing k a s with
  | zero =>
      have := h.le_end
      omega
  | succ fuel ih =>
      have hpos := pow_pos (show (0 : ℤ) < 2 by omega) k
      have hle := h.le
      have hend := h.le_end
      have hempty := h.queue.isEmpty_iff
      rw [bfsLoop]
      rcases lt_or_ge n a with han | han
      · have hstop : queueIsEmpty s.q.queue = true := hempty.mpr (by omega)
        obtain rfl : a = n + 1 := by omega
        exact ⟨s, k, by simp [hstop], h⟩
      · have hgo : ¬ queueIsEmpty s.q.queue = true := by
          rw [hempty]
          omega
        obtain ⟨s₁, k₁, hpass, h₁⟩ := h.pass (M := M) han hn
        simp only [hgo, hpass, ok_bind]
        exact ih h₁ (by omega)

/-- The numbers among what is printed. -/
def nodes (out : List Printed) : List ℤ :=
  out.filterMap fun
    | .node v => some v
    | _ => none

lemma nodes_line (n : ℤ) (k : ℕ) : nodes (line n k) = span (2 ^ k) (min (2 ^ (k + 1) - 1) n) := by
  simp [nodes, line, List.filterMap_append, List.filterMap_map]

/-- The lines continue each other. -/
lemma nodes_lines (h : 2 ^ k ≤ n) :
    nodes ((List.range (k + 1)).flatMap (line n)) = span 1 (min (2 ^ (k + 1) - 1) n) := by
  induction k with
  | zero => simpa using nodes_line n 0
  | succ k ih =>
      have hpos := pow_pos (show (0 : ℤ) < 2 by omega) k
      have hpow := pow_succ' (2 : ℤ) k
      have hpow' := pow_succ' (2 : ℤ) (k + 1)
      have hfull : min (2 ^ (k + 1) - 1) n = 2 ^ (k + 1) - 1 := by omega
      have ih := ih (by omega)
      rw [hfull] at ih
      have hjoin : span 1 (min (2 ^ (k + 1 + 1) - 1) n)
          = span 1 (2 ^ (k + 1) - 1) ++ span (2 ^ (k + 1) - 1 + 1) (min (2 ^ (k + 1 + 1) - 1) n) :=
        seg_append (by omega) (by omega)
      rw [show (2 : ℤ) ^ (k + 1) - 1 + 1 = 2 ^ (k + 1) by omega] at hjoin
      rw [List.range_succ, List.flatMap_append, List.flatMap_singleton, nodes,
        List.filterMap_append, ← nodes, ← nodes, ih, nodes_line, hjoin]

lemma level_mem_lines {K : ℕ} : .level k ∈ (List.range K).flatMap (line n) ↔ k < K := by
  simp [line]

/-- The state before the loop. -/
lemma bfsInv_start (hpos : 1 ≤ n) (h : QueueHolds q [1]) :
    BfsInv n 0 1 { q := q, level := 0, inLevel := 1, printed := 0, out := [.level 0] } := by
  have hspan : span 1 (min (2 * 1 - 1) n) = [1] := by
    rw [show min (2 * 1 - 1) n = 1 by omega]
    rfl
  have hnone : span 1 0 = [] := rfl
  exact
    { le := by simp
      le_end := by
        simp
        omega
      at_end := by simp
      level_le := by simpa using hpos
      queue := by
        rw [hspan]
        exact h
      level := by simp
      inLevel := by
        simp
        omega
      printed := by simp
      out := by simp [hnone] }

lemma lt_succ_iff_two_pow_le (hle : 2 ^ k ≤ n) (hlt : n < 2 ^ (k + 1)) (j : ℕ) :
    j < k + 1 ↔ 2 ^ j ≤ n := by
  constructor
  · intro hj
    exact le_trans (pow_le_pow_right₀ (by omega) (Nat.lt_succ_iff.mp hj)) hle
  · intro hj
    by_contra hkj
    have hmono : (2 : ℤ) ^ (k + 1) ≤ 2 ^ j := pow_le_pow_right₀ (by omega) (by omega)
    omega

/-- **Level order.** -/
theorem bfs_level_order (M : Malloc Node) (n : ℤ) (hpos : 1 ≤ n) (hn : n < 2 ^ 30) (fuel : ℕ)
    (hfuel : n < fuel) :
    ∃ out, bfsOrder M fuel n = .ok out ∧ nodes out = span 1 n
      ∧ (∃ K, out = (List.range K).flatMap (line n) ∧ ∀ k, k < K ↔ 2 ^ k ≤ n)
      ∧ ∀ k : ℕ, .level k ∈ out ↔ 2 ^ k ≤ n := by
  obtain ⟨q, hroot, hq⟩ := QueueHolds.enqueue (M := M) ⟨[], queueInv_create, rfl⟩ 1 (by decide)
  obtain ⟨s, k, hloop, hs⟩ := (bfsInv_start hpos hq).loop (M := M) hn fuel (by omega)
  have hpow := pow_succ' (2 : ℤ) k
  have hlt : n < 2 ^ (k + 1) := by
    have := hs.le_end
    omega
  have hcut : min (2 ^ (k + 1) - 1) n = n := by omega
  have hout : s.out ++ [.newline] = (List.range (k + 1)).flatMap (line n) := by
    rw [hs.out, List.range_succ, List.flatMap_append, List.flatMap_singleton, line, hcut]
    simp
  have hfree : dequeueAll fuel s.q = .ok s.q.mem := by
    obtain ⟨fuel, rfl⟩ : ∃ f, fuel = f + 1 := ⟨fuel - 1, by omega⟩
    have hempty : queueIsEmpty s.q.queue = true := hs.queue.isEmpty_iff.mpr (by omega)
    simp [dequeueAll, hempty]
  have hiff := lt_succ_iff_two_pow_le hs.level_le hlt
  refine ⟨_, ?_, ?_, ⟨k + 1, hout, hiff⟩, fun j => ?_⟩
  · simp only [bfsOrder, hroot, hloop, hfree, ok_bind, pure_eq_ok]
  · rw [hout, nodes_lines hs.level_le, hcut]
  · rw [hout, level_mem_lines, hiff]

/-- A tree whose last level is not full. -/
theorem bfs_level_order_ragged :
    (1 : ℤ) ≤ 6 ∧ (6 : ℤ) < 2 ^ 30 ∧ (6 : ℤ) < (7 : ℕ)
      ∧ ∃ out, bfsOrder Malloc.bump 7 6 = .ok out ∧ nodes out = [1, 2, 3, 4, 5, 6] := by
  obtain ⟨out, hrun, hnodes, _⟩ :=
    bfs_level_order Malloc.bump 6 (by decide) (by decide) 7 (by decide)
  exact ⟨by decide, by decide, by decide, out, hrun, hnodes⟩

end CExercises.StackQueue
