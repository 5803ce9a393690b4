import CExercises.LinkedList.Def
import Mathlib.Data.List.InsertIdx

/-!
# The linked list implements a sequence

`abstractCall` says what each function is for, on plain lists of integers: cons, append, insertion
at a clamped index, tail, erasing the first occurrence, removing a position, reversal.
`represents_call` shows that one call of the code does exactly that to the values along the chain,
and `runCalls_matches` turns it into a statement about every client.

The work is in the walks.  Each loop gets one lemma that says where it stops: on the last node
(`walkToLast_eq`), at most `k` nodes in (`walkAtMost_eq`), just before the first occurrence
(`walkToBefore_eq`).  The answer is always given as a way of cutting the chain in two around a
node, because that is what the surgeries of `Core/Chain.lean` take.
-/

namespace CExercises.LinkedList

/-- The header and the heap hold the list of nodes `xs`. -/
structure Represents (s : State) (xs : List (ℕ × ℤ)) : Prop where
  chain : Chain (s.mem.view nodeView) s.list.head xs none
  size : s.list.size = xs.length

/-! ## Where the walks stop -/

section

variable {m : Memory Node} {p : Ptr} {xs : List (ℕ × ℤ)}

/-- The walk of `list_push_back` stops on the last node. -/
lemma walkToLast_eq : ∀ (fuel : ℕ) {p : Ptr} {ys : List (ℕ × ℤ)} {x : ℕ × ℤ},
    Chain (m.view nodeView) p (ys ++ [x]) none → ys.length < fuel →
      walkToLast m fuel p = .ok (some x.1)
  | 0, _, _, _, _, hf => absurd hf (by omega)
  | fuel + 1, p, [], x, h, _ => by
      obtain ⟨hp, p', hx, hend⟩ := h
      have hp' : p' = none := hend
      subst hp hp'
      simp [walkToLast, loadNext_eq hx]
  | fuel + 1, p, y :: ys, x, h, hf => by
      obtain ⟨hp, p', hy, hrest⟩ := h
      subst hp
      have hne : p' ≠ none := by
        intro hnone
        have := hrest.eq_nil_iff.mpr hnone
        simp at this
      have ih := walkToLast_eq fuel hrest (by simp at hf; omega)
      simp only [walkToLast, loadNext_eq hy, ok_bind, if_neg hne, ih]

/-- The walk of `list_insert_at` and `list_delete_at` goes `k` nodes ahead, or to the last node
if the list is shorter than that. -/
lemma walkAtMost_eq : ∀ (k : ℕ) {p : Ptr} {x : ℕ × ℤ} {xs : List (ℕ × ℤ)},
    Chain (m.view nodeView) p (x :: xs) none →
      ∃ ys y zs, x :: xs = ys ++ y :: zs ∧ walkAtMost m k p = .ok (some y.1)
        ∧ ys.length = min k xs.length
  | 0, p, x, xs, h => ⟨[], x, xs, rfl, by rw [h.1]; rfl, by simp⟩
  | k + 1, p, x, [], h => by
      obtain ⟨hp, p', hx, hend⟩ := h
      have hp' : p' = none := hend
      subst hp hp'
      refine ⟨[], x, [], rfl, ?_, by simp⟩
      simp [walkAtMost, loadNext_eq hx]
  | k + 1, p, x, y :: xs, h => by
      obtain ⟨hp, p', hx, hrest⟩ := h
      subst hp
      obtain ⟨ys, z, zs, hsplit, hwalk, hlen⟩ := walkAtMost_eq k hrest
      have hne : p' ≠ none := by rw [hrest.1]; simp
      refine ⟨x :: ys, z, zs, by rw [hsplit]; rfl, ?_, ?_⟩
      · simp only [walkAtMost, loadNext_eq hx, ok_bind, if_neg hne, hwalk]
      · simp only [List.length_cons, hlen]
        omega

/-- The walk of `list_delete_value` stops just before the first occurrence, or on the last node
if there is none.  It starts behind the head, which the caller has already looked at. -/
lemma walkToBefore_eq (value : ℤ) : ∀ (fuel : ℕ) {p : Ptr} {x : ℕ × ℤ} {xs : List (ℕ × ℤ)},
    Chain (m.view nodeView) p (x :: xs) none → xs.length < fuel → x.2 ≠ value →
      ∃ ys y zs, x :: xs = ys ++ y :: zs
        ∧ walkToBefore m value fuel p = .ok (some y.1)
        ∧ value ∉ payloads (ys ++ [y]) ∧ ∀ z ∈ zs.head?, z.2 = value
  | 0, _, _, _, _, hf, _ => absurd hf (by omega)
  | fuel + 1, p, x, [], h, _, hv => by
      obtain ⟨hp, p', hx, hend⟩ := h
      have hp' : p' = none := hend
      subst hp hp'
      refine ⟨[], x, [], rfl, ?_, by simp [Ne.symm hv], by simp⟩
      simp [walkToBefore, loadNext_eq hx]
  | fuel + 1, p, x, y :: xs, h, hf, hv => by
      obtain ⟨hp, p', hx, hrest⟩ := h
      subst hp
      have hp' : p' = some y.1 := hrest.1
      obtain ⟨_, hy⟩ := hrest.view_of_mem List.mem_cons_self
      by_cases hyv : y.2 = value
      · refine ⟨[], x, y :: xs, rfl, ?_, by simp [Ne.symm hv], by simp [hyv]⟩
        simp [walkToBefore, loadNext_eq hx, hp', loadValue_eq hy, hyv]
      · obtain ⟨ys, z, zs, hsplit, hwalk, hnot, hhead⟩ :=
          walkToBefore_eq value fuel hrest (by simp at hf; omega) hyv
        refine ⟨x :: ys, z, zs, by rw [hsplit]; rfl, ?_, ?_, hhead⟩
        · rw [hp'] at hx hwalk
          simp [walkToBefore, loadNext_eq hx, loadValue_eq hy, hyv, hwalk]
        · simp only [payloads, List.cons_append, List.map_cons, List.mem_cons, not_or]
          exact ⟨Ne.symm hv, hnot⟩

/-- The walk of `list_get` drops nodes, and stays on `NULL` when there are none left. -/
lemma walkToIndex_eq : ∀ (k : ℕ) {p : Ptr} {xs : List (ℕ × ℤ)},
    Chain (m.view nodeView) p xs none →
      ∃ q, walkToIndex m k p = .ok q ∧ Chain (m.view nodeView) q (xs.drop k) none
  | 0, p, xs, h => ⟨p, rfl, h⟩
  | k + 1, p, [], h => by
      have hp : p = none := h
      subst hp
      exact ⟨none, by simp [walkToIndex], h⟩
  | k + 1, p, x :: xs, h => by
      obtain ⟨hp, p', hx, hrest⟩ := h
      subst hp
      obtain ⟨q, hwalk, hchain⟩ := walkToIndex_eq k hrest
      exact ⟨q, by simp [walkToIndex, loadNext_eq hx, hwalk], hchain⟩

/-- The loop of `list_contains` answers membership. -/
lemma containsFrom_eq (value : ℤ) : ∀ (fuel : ℕ) {p : Ptr} {xs : List (ℕ × ℤ)},
    Chain (m.view nodeView) p xs none → xs.length < fuel →
      containsFrom m value fuel p = .ok (if value ∈ payloads xs then 1 else 0)
  | 0, _, _, _, hf => absurd hf (by omega)
  | fuel + 1, p, [], h, _ => by
      have hp : p = none := h
      subst hp
      simp [containsFrom]
  | fuel + 1, p, x :: xs, h, hf => by
      obtain ⟨hp, p', hx, hrest⟩ := h
      subst hp
      have ih := containsFrom_eq value fuel hrest (by simp at hf; omega)
      by_cases hv : x.2 = value
      · simp [containsFrom, loadValue_eq hx, hv]
      · have hmem : value ∈ payloads (x :: xs) ↔ value ∈ payloads xs := by
          simp [Ne.symm hv]
        simp only [containsFrom, loadValue_eq hx, loadNext_eq hx, hv, ok_bind, ih, hmem]
        rfl

/-- **In-place reversal.**  At every turn the chain is broken in two: `ys`, already turned around
and hanging off `prev`, and `xs`, still in its old order and hanging off `cur`.  Nothing outside
`xs` is written. -/
lemma reverseFrom_eq : ∀ (fuel : ℕ) {m : Memory Node} {prev cur : Ptr} {xs ys : List (ℕ × ℤ)},
    Chain (m.view nodeView) cur xs none → Chain (m.view nodeView) prev ys none →
      (∀ a ∈ addrs xs, a ∉ addrs ys) → xs.length < fuel →
      ∃ m' p, reverseFrom fuel m prev cur = .ok (m', p)
        ∧ Chain (m'.view nodeView) p (xs.reverse ++ ys) none
        ∧ (∀ b, b ∉ addrs xs → m'.view nodeView b = m.view nodeView b) ∧ m'.brk = m.brk
  | 0, _, _, _, _, _, _, _, _, hf => absurd hf (by omega)
  | fuel + 1, m, prev, cur, [], ys, h, hys, _, _ => by
      have hcur : cur = none := h
      subst hcur
      exact ⟨m, prev, by simp [reverseFrom], by simpa using hys, fun _ _ => rfl, rfl⟩
  | fuel + 1, m, prev, cur, x :: xs, ys, h, hys, hdis, hf => by
      have hnd := h.nodup
      obtain ⟨hcur, next, hx, hrest⟩ := h
      subst hcur
      have hxxs : x.1 ∉ addrs xs := (List.nodup_cons.mp hnd).1
      have hxys : x.1 ∉ addrs ys := hdis _ List.mem_cons_self
      obtain ⟨m₁, hm₁, hview, hbrk⟩ := storeNext_eq hx prev
      have hxs' : Chain (m₁.view nodeView) next xs none := by
        rw [hview]
        exact hrest.update hxxs
      have hys' : Chain (m₁.view nodeView) (some x.1) (x :: ys) none := by
        rw [hview]
        exact hys.cons_update hxys
      have hdis' : ∀ a ∈ addrs xs, a ∉ addrs (x :: ys) := by
        intro a ha hmem
        rcases List.mem_cons.mp hmem with rfl | hmem
        · exact hxxs ha
        · exact hdis a (List.mem_cons_of_mem _ ha) hmem
      obtain ⟨m', p, hrun, hchain, hframe, hbrk'⟩ :=
        reverseFrom_eq fuel hxs' hys' hdis' (by simp at hf; omega)
      refine ⟨m', p, ?_, by simpa using hchain, ?_, by rw [hbrk', hbrk]⟩
      · simp [reverseFrom, loadNext_eq hx, hm₁, hrun]
      · intro b hb
        simp only [addrs, List.map_cons, List.mem_cons, not_or] at hb
        rw [hframe b hb.2, hview, Function.update_of_ne hb.1]

end

/-! ## One call -/

section

variable {M : Malloc Node} {s : State} {xs : List (ℕ × ℤ)}

lemma represents_create : Represents listCreate [] := ⟨rfl, rfl⟩

lemma Represents.head_eq_none (h : Represents s xs) : s.list.head = none ↔ xs = [] :=
  h.chain.eq_nil_iff.symm

/-- A function that hangs one more node into the list: it leads to the chain `xs'`, unless the
`size++` at its end overflows. -/
def Grows (s : State) (x : Except Stop State) (xs' : List (ℕ × ℤ)) : Prop :=
  ∃ m head, x = (intSucc s.list.size >>= fun size => .ok ⟨m, ⟨head, size⟩⟩)
    ∧ Chain (m.view nodeView) head xs' none

lemma Grows.represents {x : Except Stop State} {xs' : List (ℕ × ℤ)} (hg : Grows s x xs')
    (h : Represents s xs) (hlen : xs'.length = xs.length + 1)
    (hroom : (xs'.length : ℤ) ≤ INT_MAX) : ∃ s', x = .ok s' ∧ Represents s' xs' := by
  obtain ⟨m, head, rfl, hchain⟩ := hg
  have hsize := h.size
  refine ⟨⟨m, ⟨head, s.list.size + 1⟩⟩, ?_, hchain, ?_⟩
  · rw [intSucc_eq (by omega), ok_bind]
  · simp only
    omega

lemma Grows.overflow {x : Except Stop State} {xs' : List (ℕ × ℤ)} (hg : Grows s x xs')
    (h : Represents s xs) (hlen : xs'.length = xs.length + 1)
    (hfull : INT_MAX < xs'.length) : x = .error .overflow := by
  obtain ⟨m, head, rfl, -⟩ := hg
  have hsize := h.size
  rw [intSucc_overflow (by omega), error_bind]

lemma Represents.pushFront (h : Represents s xs) (value : ℤ) :
    Grows s (listPushFront M s value) ((M.place s.mem, value) :: xs) := by
  have hfresh := h.chain.not_mem_of_eq_none (M.view_place (f := nodeView))
  have hnew : (nodeCreate M s.mem value).2.view nodeView (M.place s.mem)
      = some (value, none) := by
    rw [nodeCreate_view, Function.update_self]
  obtain ⟨m', hm', hview, _⟩ := storeNext_eq hnew s.list.head
  refine ⟨m', some (M.place s.mem), ?_, ?_⟩
  · simp [listPushFront, nodeCreate_fst, hm']
  · rw [hview, nodeCreate_view, Function.update_idem]
    exact h.chain.cons_update hfresh

/-- `list_push_front` on a list that still has room in its counter. -/
lemma Represents.pushFront_ok (h : Represents s xs) (value : ℤ)
    (hroom : (xs.length : ℤ) < INT_MAX) :
    ∃ s', listPushFront M s value = .ok s' ∧ Represents s' ((M.place s.mem, value) :: xs) :=
  (h.pushFront value).represents h List.length_cons (by rw [List.length_cons]; omega)

lemma Represents.pushBack (h : Represents s xs) (value : ℤ) :
    Grows s (listPushBack M s value) (xs ++ [(M.place s.mem, value)]) := by
  have hnone : s.mem.view nodeView (M.place s.mem) = none := M.view_place
  have hfresh := h.chain.not_mem_of_eq_none hnone
  -- the chain as it looks after `node_create`
  have hview₁ := nodeCreate_view (m := s.mem) (v := value) M
  have hold : Chain ((nodeCreate M s.mem value).2.view nodeView) s.list.head xs none := by
    rw [hview₁]
    exact h.chain.update hfresh
  rcases List.eq_nil_or_concat xs with rfl | ⟨ys, x, rfl⟩
  · have hhead := h.head_eq_none.mpr rfl
    refine ⟨(nodeCreate M s.mem value).2, some (M.place s.mem), ?_, ?_⟩
    · simp [listPushBack, hhead, nodeCreate_fst]
    · rw [hview₁]
      exact ⟨rfl, none, by simp, rfl⟩
  · rw [List.concat_eq_append] at *
    have hhead : s.list.head ≠ none := fun hn => by
      have := h.head_eq_none.mp hn
      simp at this
    have hlen := hold.length_le_brk
    have hwalk := walkToLast_eq ((nodeCreate M s.mem value).2.brk + 1) hold
      (by simp at hlen; omega)
    obtain ⟨_, hx⟩ := hold.view_of_mem (x := x) (by simp)
    obtain ⟨m', hm', hview, _⟩ := storeNext_eq hx (some (M.place s.mem))
    have hxys : x.1 ∉ addrs ys := by
      have hnd := h.chain.nodup
      simp only [addrs, List.map_append, List.map_cons, List.map_nil] at hnd
      exact fun hmem => (List.nodup_append.mp hnd).2.2 _ hmem _ (by simp) rfl
    refine ⟨m', s.list.head, ?_, ?_⟩
    · simp [listPushBack, hhead, nodeCreate_fst, hwalk, hm']
    · rw [hview, chain_append]
      refine ⟨some (M.place s.mem), hold.redirect_last hxys, rfl, none, ?_, rfl⟩
      have hne : M.place s.mem ≠ x.1 := fun he => hfresh (by simp [he])
      rw [Function.update_of_ne hne, hview₁]
      simp

lemma Represents.insertAfter {ys zs : List (ℕ × ℤ)} {y : ℕ × ℤ}
    (h : Represents s (ys ++ y :: zs)) (value : ℤ) :
    Grows s (insertAfter M s (some y.1) value) (ys ++ y :: (M.place s.mem, value) :: zs) := by
  have hnone : s.mem.view nodeView (M.place s.mem) = none := M.view_place
  obtain ⟨r, hr, hchain⟩ := h.chain.insert_after (v := value) hnone
  have hne : y.1 ≠ M.place s.mem := by
    intro he
    rw [he, hnone] at hr
    cases hr
  have hview₁ := nodeCreate_view (m := s.mem) (v := value) M
  have hy : (nodeCreate M s.mem value).2.view nodeView y.1 = some (y.2, r) := by
    rw [hview₁, Function.update_of_ne hne, hr]
  have hn : (nodeCreate M s.mem value).2.view nodeView (M.place s.mem) = some (value, none) := by
    rw [hview₁, Function.update_self]
  obtain ⟨m₂, hm₂, hview₂, _⟩ := storeNext_eq hn r
  have hy₂ : m₂.view nodeView y.1 = some (y.2, r) := by
    rw [hview₂, Function.update_of_ne hne, hy]
  obtain ⟨m₃, hm₃, hview₃, _⟩ := storeNext_eq hy₂ (some (M.place s.mem))
  refine ⟨m₃, s.list.head, ?_, ?_⟩
  · simp [LinkedList.insertAfter, nodeCreate_fst, loadNext_eq hy, hm₂, hm₃]
  · rw [hview₃, hview₂, hview₁, Function.update_idem]
    exact hchain

/-- `size--` on a list that is not empty. -/
lemma Represents.intPred {x : ℕ × ℤ} (h : Represents s (x :: xs)) :
    CExercises.intPred s.list.size = .ok xs.length := by
  have hsize := h.size
  rw [List.length_cons] at hsize
  rw [intPred_eq (by unfold INT_MIN; omega), hsize]
  congr 1
  omega

lemma Represents.popFront {x : ℕ × ℤ} (h : Represents s (x :: xs)) :
    ∃ s', listPopFront s = .ok (x.2, s') ∧ Represents s' xs := by
  obtain ⟨r, hhead, hx, hchain⟩ := h.chain.unlink_first
  obtain ⟨m', hm', hview⟩ := Memory.free_of_view hx
  refine ⟨⟨m', ⟨r, xs.length⟩⟩, ?_, ?_, rfl⟩
  · simp [listPopFront, hhead, loadValue_eq hx, loadNext_eq hx, hm', h.intPred]
  · show Chain (m'.view nodeView) _ _ _
    rw [hview]
    exact hchain

/-- The common tail of the two delete functions does nothing behind the last node. -/
lemma Represents.unlinkAfter_last {ys : List (ℕ × ℤ)} {y : ℕ × ℤ} (h : Represents s (ys ++ [y])) :
    unlinkAfter s (some y.1) = .ok s := by
  obtain ⟨r, hy, _, hend, _⟩ := h.chain.split_at
  have hr : r = none := hend
  subst hr
  simp [unlinkAfter, loadNext_eq hy]

lemma Represents.unlinkAfter_mid {ys zs : List (ℕ × ℤ)} {y z : ℕ × ℤ}
    (h : Represents s (ys ++ y :: z :: zs)) :
    ∃ s', unlinkAfter s (some y.1) = .ok s' ∧ Represents s' (ys ++ y :: zs) := by
  obtain ⟨r, hy, hz, hne, hchain⟩ := h.chain.unlink_after
  obtain ⟨m₁, hm₁, hview₁, _⟩ := storeNext_eq hy r
  have hz₁ : m₁.view nodeView z.1 = some (z.2, r) := by
    rw [hview₁, Function.update_of_ne (Ne.symm hne), hz]
  obtain ⟨m₂, hm₂, hview₂⟩ := Memory.free_of_view hz₁
  have hsize := h.size
  rw [List.length_append, List.length_cons, List.length_cons] at hsize
  have hpred : CExercises.intPred s.list.size = .ok (s.list.size - 1) :=
    intPred_eq (by unfold INT_MIN; omega)
  refine ⟨⟨m₂, ⟨s.list.head, s.list.size - 1⟩⟩, ?_, ?_, ?_⟩
  · simp [unlinkAfter, loadNext_eq hy, loadNext_eq hz, hm₁, hm₂, hpred]
  · show Chain (m₂.view nodeView) _ _ _
    rw [hview₂, hview₁]
    exact hchain
  · simp only [List.length_append, List.length_cons]
    omega

end

/-! ## The sequence it implements -/

/-- What each function does to the sequence of values.  The message is the one `list_pop_front`
leaves with on an empty list, and a sequence of more than `INT_MAX` values cannot be counted. -/
def abstractCall (vs : List ℤ) : Call → Except Stop (List ℤ × Option ℤ)
  | .pushFront value => do return (← counted (value :: vs), none)
  | .pushBack value => do return (← counted (vs ++ [value]), none)
  | .insertAt index value => do
      return (← counted (vs.insertIdx (min (max index 0) vs.length).toNat value), none)
  | .popFront =>
      match vs with
      | [] => .error (.exit "pop on empty list")
      | v :: vs => .ok (vs, some v)
  | .deleteValue value => .ok (vs.erase value, none)
  | .deleteAt index =>
      .ok (if 0 ≤ index ∧ index < vs.length then vs.eraseIdx index.toNat else vs, none)
  | .reverse => .ok (vs.reverse, none)

/-- The header and the heap hold the sequence `vs`. -/
def Holds (s : State) (vs : List ℤ) : Prop := ∃ xs, Represents s xs ∧ payloads xs = vs

section

variable {M : Malloc Node} {s : State}

lemma insertIdx_length_append {α : Type} (l₁ l₂ : List α) (a : α) :
    (l₁ ++ l₂).insertIdx l₁.length a = l₁ ++ a :: l₂ := by
  induction l₁ with
  | nil => rfl
  | cons b l₁ ih => simp [ih]

/-- One more value, if it can be counted. -/
lemma Grows.matches {x : Except Stop State} {xs xs' : List (ℕ × ℤ)} (hg : Grows s x xs')
    (h : Represents s xs) (hlen : xs'.length = xs.length + 1) :
    Matches Holds (do return (← x, (none : Option ℤ)))
      (do return (← counted (payloads xs'), none)) := by
  have hcount : (payloads xs').length = xs'.length := List.length_map _
  by_cases hroom : (xs'.length : ℤ) ≤ INT_MAX
  · obtain ⟨s', rfl, hrep⟩ := hg.represents h hlen hroom
    rw [counted_of_le (by rw [hcount]; exact hroom)]
    exact ⟨s', rfl, xs', hrep, rfl⟩
  · obtain rfl := hg.overflow h hlen (by omega)
    rw [counted_of_lt (by rw [hcount]; omega)]
    rfl

/-- Both ways into `list_insert_at` put the value at the clamped index. -/
lemma grows_insertAt {xs : List (ℕ × ℤ)} (h : Represents s xs) (index value : ℤ) :
    ∃ xs', Grows s (listInsertAt M s index value) xs' ∧ xs'.length = xs.length + 1
      ∧ payloads xs'
        = (payloads xs).insertIdx (min (max index 0) (payloads xs).length).toNat value := by
  by_cases hfront : index ≤ 0 ∨ s.list.head = none
  · have hgrows := h.pushFront (M := M) value
    refine ⟨_, by simpa only [listInsertAt, if_pos hfront] using hgrows, rfl, ?_⟩
    have hzero : (min (max index 0) ((payloads xs).length : ℤ)).toNat = 0 := by
      rcases hfront with hi | hn
      · omega
      · have hnil := h.head_eq_none.mp hn
        subst hnil
        simp only [payloads, List.map_nil, List.length_nil]
        omega
    rw [hzero]
    simp
  · rw [not_or] at hfront
    cases xs with
    | nil => exact absurd (h.head_eq_none.mpr rfl) hfront.2
    | cons x xs =>
        obtain ⟨ys, y, zs, hsplit, hwalk, hlen⟩ := walkAtMost_eq (index - 1).toNat h.chain
        rw [hsplit] at h ⊢
        have hgrows := h.insertAfter (M := M) value
        have hindex : (min (max index 0) ((payloads (ys ++ y :: zs)).length : ℤ)).toNat
            = (payloads (ys ++ [y])).length := by
          have hl := congrArg List.length hsplit
          simp at hl ⊢
          omega
        refine ⟨ys ++ y :: (M.place s.mem, value) :: zs, ?_, ?_, ?_⟩
        · simpa only [listInsertAt, hfront, or_self, if_false, hwalk, ok_bind] using hgrows
        · simp only [List.length_append, List.length_cons]
          omega
        · have hcut : payloads (ys ++ y :: zs) = payloads (ys ++ [y]) ++ payloads zs := by simp
          rw [hindex, hcut, insertIdx_length_append]
          simp

/-- `list_delete_value` erases the first occurrence, wherever it is. -/
lemma holds_deleteValue {xs : List (ℕ × ℤ)} (h : Represents s xs) (value : ℤ) :
    ∃ s', listDeleteValue s value = .ok s' ∧ Holds s' ((payloads xs).erase value) := by
  cases xs with
  | nil =>
      have hhead := h.head_eq_none.mpr rfl
      exact ⟨s, by simp [listDeleteValue, hhead], [], h, rfl⟩
  | cons x xs =>
      obtain ⟨hhead, p', hx, _⟩ := h.chain
      have hval := loadValue_eq hx
      by_cases hxv : x.2 = value
      · obtain ⟨s', hs', hrep⟩ := h.popFront
        refine ⟨s', ?_, xs, hrep, ?_⟩
        · simp [listDeleteValue, hhead, hval, hxv, hs']
        · simp [hxv]
      · have hlen := h.chain.length_le_brk
        obtain ⟨ys, y, zs, hsplit, hwalk, hnot, hfirst⟩ :=
          walkToBefore_eq value (s.mem.brk + 1) h.chain (by simp at hlen; omega) hxv
        have hcode : listDeleteValue s value = unlinkAfter s (some y.1) := by
          rw [hhead] at hwalk
          simp [listDeleteValue, hhead, hval, hxv, hwalk]
        rw [hsplit] at h ⊢
        have hcut : payloads (ys ++ y :: zs) = payloads (ys ++ [y]) ++ payloads zs := by simp
        rw [hcode, hcut, List.erase_append_right _ hnot]
        cases zs with
        | nil => exact ⟨s, h.unlinkAfter_last, _, h, by simp⟩
        | cons z zs =>
            have hz : z.2 = value := hfirst z rfl
            obtain ⟨s', hs', hrep⟩ := h.unlinkAfter_mid
            exact ⟨s', hs', _, hrep, by simp [hz]⟩

/-- `list_delete_at` removes exactly the positions that exist. -/
lemma Represents.deleteAt {xs : List (ℕ × ℤ)} (h : Represents s xs) {index : ℤ}
    (hindex : 0 ≤ index) :
    ∃ s', listDeleteAt s index = .ok s' ∧ Represents s' (xs.eraseIdx index.toNat) := by
  cases xs with
  | nil => exact ⟨s, by simp [listDeleteAt, h.head_eq_none.mpr rfl], h⟩
  | cons x xs =>
      have hhead : s.list.head ≠ none := by simp [h.head_eq_none]
      have hin : ¬ (s.list.head = none ∨ index < 0) := by simp [hhead, hindex]
      by_cases hzero : index = 0
      · obtain ⟨s', hs', hrep⟩ := h.popFront
        subst hzero
        exact ⟨s', by simp [listDeleteAt, hhead, hs'], hrep⟩
      · obtain ⟨ys, y, zs, hsplit, hwalk, hlen⟩ := walkAtMost_eq (index - 1).toNat h.chain
        have hcode : listDeleteAt s index = unlinkAfter s (some y.1) := by
          simp only [listDeleteAt, if_neg hin, hzero, if_false, hwalk, ok_bind]
        have hl := congrArg List.length hsplit
        rw [hsplit] at h ⊢
        simp only [List.length_append, List.length_cons] at hl
        rw [hcode]
        cases zs with
        | nil =>
            rw [List.eraseIdx_of_length_le (by simp at hl ⊢; omega)]
            exact ⟨s, h.unlinkAfter_last, h⟩
        | cons z zs =>
            simp only [List.length_cons] at hl
            have hpos : index.toNat = ys.length + 1 := by omega
            rw [hpos, List.eraseIdx_append_of_length_le (by omega), Nat.add_sub_cancel_left]
            exact h.unlinkAfter_mid

/-- A negative index is refused. -/
lemma listDeleteAt_neg {index : ℤ} (hindex : index < 0) : listDeleteAt s index = .ok s := by
  simp [listDeleteAt, hindex]

lemma holds_deleteAt {xs : List (ℕ × ℤ)} (h : Represents s xs) (index : ℤ) :
    ∃ s', listDeleteAt s index = .ok s'
      ∧ Holds s' (if 0 ≤ index ∧ index < (payloads xs).length
          then (payloads xs).eraseIdx index.toNat else payloads xs) := by
  by_cases hindex : 0 ≤ index
  · obtain ⟨s', hs', hrep⟩ := h.deleteAt hindex
    refine ⟨s', hs', _, hrep, ?_⟩
    split_ifs with hlt
    · exact (List.eraseIdx_map ..).symm
    · rw [List.eraseIdx_of_length_le]
      simp only [payloads, List.length_map] at hlt
      omega
  · exact ⟨s, listDeleteAt_neg (by omega), xs, h, by rw [if_neg (by omega)]⟩

/-- `list_reverse` on a chain to `NULL`.  The `size` field plays no part. -/
lemma listReverse_spec {xs : List (ℕ × ℤ)}
    (h : Chain (s.mem.view nodeView) s.list.head xs none) :
    ∃ s', listReverse s = .ok s'
      ∧ Chain (s'.mem.view nodeView) s'.list.head xs.reverse none
      ∧ (∀ b, b ∉ addrs xs → s'.mem.view nodeView b = s.mem.view nodeView b)
      ∧ s'.mem.brk = s.mem.brk ∧ s'.list.size = s.list.size := by
  have hlen := h.length_le_brk
  have hstart : Chain (s.mem.view nodeView) none [] none := rfl
  obtain ⟨m', p, hrun, hchain, hframe, hbrk⟩ :=
    reverseFrom_eq (s.mem.brk + 1) h hstart (by simp) (by omega)
  rw [List.append_nil] at hchain
  exact ⟨⟨m', ⟨p, s.list.size⟩⟩, by simp [listReverse, hrun], hchain, hframe, hbrk, rfl⟩

lemma holds_reverse {xs : List (ℕ × ℤ)} (h : Represents s xs) :
    ∃ s', listReverse s = .ok s' ∧ Holds s' (payloads xs).reverse := by
  obtain ⟨s', hrun, hchain, _, _, hsize⟩ := listReverse_spec h.chain
  refine ⟨s', hrun, xs.reverse, ⟨hchain, ?_⟩, ?_⟩
  · rw [hsize, h.size, List.length_reverse]
  · simp [payloads]

/-- **One call.**  Whatever the state, the code returns what the sequence returns and leaves the
sequence's next value, or exits with the sequence's message. -/
theorem holds_call (M : Malloc Node) (s : State) (vs : List ℤ) (c : Call) (h : Holds s vs) :
    Matches Holds (call M s c) (abstractCall vs c) := by
  obtain ⟨xs, hrep, rfl⟩ := h
  cases c with
  | pushFront value =>
      have hgrows := hrep.pushFront (M := M) value
      have hlen : ((M.place s.mem, value) :: xs).length = xs.length + 1 := List.length_cons
      have hmatch := hgrows.matches hrep hlen
      rw [payloads, List.map_cons] at hmatch
      exact hmatch
  | pushBack value =>
      have hmatch := (hrep.pushBack (M := M) value).matches hrep List.length_append
      rw [payloads, List.map_append] at hmatch
      exact hmatch
  | insertAt index value =>
      obtain ⟨xs', hgrows, hlen, hvals⟩ := grows_insertAt (M := M) hrep index value
      have hmatch := hgrows.matches hrep hlen
      rw [hvals] at hmatch
      exact hmatch
  | popFront =>
      cases xs with
      | nil =>
          have hhead := hrep.head_eq_none.mpr rfl
          show call M s .popFront = .error (.exit "pop on empty list")
          simp [call, listPopFront, hhead]
      | cons x xs =>
          obtain ⟨s', hs', hrep'⟩ := hrep.popFront
          exact ⟨s', by simp [call, hs'], xs, hrep', rfl⟩
  | deleteValue value =>
      obtain ⟨s', hs', hholds⟩ := holds_deleteValue hrep value
      exact ⟨s', by simp [call, hs'], hholds⟩
  | deleteAt index =>
      obtain ⟨s', hs', hholds⟩ := holds_deleteAt hrep index
      exact ⟨s', by simp [call, hs'], hholds⟩
  | reverse =>
      obtain ⟨s', hs', hholds⟩ := holds_reverse hrep
      exact ⟨s', by simp [call, hs'], hholds⟩

/-- `list_get` counts a negative index as `0`. -/
lemma Represents.get {xs : List (ℕ × ℤ)} (h : Represents s xs) (index : ℤ) :
    listGet s index = match xs[index.toNat]? with
      | some x => .ok x.2
      | none => .error (.exit "index out of range") := by
  obtain ⟨q, hwalk, hchain⟩ := walkToIndex_eq index.toNat h.chain
  rw [← List.head?_drop]
  cases hdrop : xs.drop index.toNat with
  | nil =>
      rw [hdrop] at hchain
      have hq : q = none := hchain
      subst hq
      simp [listGet, hwalk]
  | cons x rest =>
      rw [hdrop] at hchain
      obtain ⟨hq, _, hx, _⟩ := hchain
      subst hq
      simp [listGet, hwalk, loadValue_eq hx]

lemma Represents.contains {xs : List (ℕ × ℤ)} (h : Represents s xs) (value : ℤ) :
    listContains s value = .ok (if value ∈ payloads xs then 1 else 0) := by
  have hlen := h.chain.length_le_brk
  exact containsFrom_eq value (s.mem.brk + 1) h.chain (by omega)

end

/-- A client's calls on the abstract sequence, which starts empty. -/
def abstractRun (cs : List Call) : Except Stop (List ℤ × List (Option ℤ)) :=
  runCalls abstractCall [] cs

lemma run_matches (M : Malloc Node) (cs : List Call) :
    Matches Holds (run M cs) (abstractRun cs) :=
  runCalls_matches (holds_call M) cs listCreate [] ⟨[], represents_create, rfl⟩

/-- **Every run.**  Where the sequence can be followed, the calls all return, and they leave an
acyclic chain whose length is `size` and whose values are the sequence.  Otherwise the code stops as
the sequence does: with the message of `list_pop_front`, or in a `size++` that overflows. -/
theorem list_run_represents (M : Malloc Node) (cs : List Call) :
    match abstractRun cs with
    | .ok (vs, rets) =>
        ∃ s xs, run M cs = .ok (s, rets)
          ∧ Chain (s.mem.view nodeView) s.list.head xs none ∧ (addrs xs).Nodup
          ∧ s.list.size = xs.length ∧ payloads xs = vs
          ∧ ∀ value, listContains s value = .ok (if value ∈ vs then 1 else 0)
    | .error stop => run M cs = .error stop := by
  have hmatch := run_matches M cs
  cases habs : abstractRun cs with
  | error stop =>
      rw [habs] at hmatch
      exact hmatch
  | ok r =>
      obtain ⟨vs, rets⟩ := r
      rw [habs] at hmatch
      obtain ⟨s, hrun, xs, hrep, hvals⟩ := hmatch
      refine ⟨s, xs, hrun, hrep.chain, hrep.chain.nodup, hrep.size, hvals, fun value => ?_⟩
      rw [← hvals]
      exact hrep.contains value

lemma run_pushFront_overflows (M : Malloc Node) (value : ℤ) {n : ℕ} (hn : INT_MAX < n) :
    run M (List.replicate n (.pushFront value)) = .error .overflow := by
  have hmatch := run_matches M (List.replicate n (.pushFront value))
  have hpos : 0 < n := by
    unfold INT_MAX at hn
    omega
  have habs := runCalls_replicate_overflows (f := abstractCall) (i := .pushFront value)
    (fun vs => value :: vs) (fun _ => rfl) (by simp) n [] hpos (by simpa using hn)
  rw [abstractRun, habs] at hmatch
  exact hmatch

/-- After `2 ^ 31` calls of `list_push_front`, `size` cannot be the length of the chain. -/
theorem list_size_overflows :
    run Malloc.bump (List.replicate 2147483648 (.pushFront 7)) = .error .overflow :=
  run_pushFront_overflows Malloc.bump 7 (by decide)

end CExercises.LinkedList
