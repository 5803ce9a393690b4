import CExercises.LinkedList.Refinement

/-!
# Which indices exist

`list_get` and `list_delete_at` walk to an index in two ways: the first takes `index` steps and may
end on `NULL`, the second takes `index - 1` steps and stops on the last node.  On an index from `0`
on they find the same node or none.  Below `0` only `list_delete_at` looks at the sign;
`list_get` takes no step and answers with the head.
-/

namespace CExercises.LinkedList

/-- `list_delete_at` takes a node out. -/
def RemovesNode (s : State) (xs : List (ℕ × ℤ)) (index : ℤ) : Prop :=
  ∃ s' xs', listDeleteAt s index = .ok s' ∧ Represents s' xs' ∧ xs'.length + 1 = xs.length

/-- The two functions agree on an index: one finds a node exactly when the other removes one, and
it is the same node, whose position is dropped. -/
structure IndexAgrees (s : State) (xs : List (ℕ × ℤ)) (index : ℤ) : Prop where
  both : (∃ v, listGet s index = .ok v) ↔ RemovesNode s xs index
  same : ∀ v, listGet s index = .ok v → ∃ ys a zs s', xs = ys ++ (a, v) :: zs
    ∧ (ys.length : ℤ) = index ∧ listDeleteAt s index = .ok s' ∧ Represents s' (ys ++ zs)

section

variable {s : State} {xs : List (ℕ × ℤ)} {index : ℤ}

lemma Represents.length_unique (h : Represents s xs) {xs' : List (ℕ × ℤ)}
    (h' : Represents s xs') : xs'.length = xs.length := by
  have hsize := h.size
  rw [h'.size] at hsize
  exact_mod_cast hsize

/-- A refused call removes nothing. -/
lemma not_removesNode_of_neg (h : Represents s xs) (hindex : index < 0) :
    ¬ RemovesNode s xs index := by
  rintro ⟨s', xs', hs', hrep, hlen⟩
  rw [listDeleteAt_neg hindex] at hs'
  cases hs'
  rw [h.length_unique hrep] at hlen
  omega

/-- From `0` on a node is removed exactly when the index is below the length. -/
lemma removesNode_iff (h : Represents s xs) (hindex : 0 ≤ index) :
    RemovesNode s xs index ↔ index.toNat < xs.length := by
  obtain ⟨s₁, hs₁, hrep₁⟩ := h.deleteAt hindex
  constructor
  · rintro ⟨s', xs', hs', hrep, hlen⟩
    rw [hs₁] at hs'
    cases hs'
    by_contra hge
    rw [List.eraseIdx_of_length_le (Nat.not_lt.mp hge)] at hrep₁
    rw [hrep₁.length_unique hrep] at hlen
    omega
  · intro hlt
    refine ⟨s₁, _, hs₁, hrep₁, ?_⟩
    rw [List.length_eraseIdx_of_lt hlt]
    omega

/-- Where `list_get` exits and no node is removed, there is nothing to compare. -/
lemma indexAgrees_of_refused {stop : Stop} (hget : listGet s index = .error stop)
    (hno : ¬ RemovesNode s xs index) : IndexAgrees s xs index := by
  have hnone : ∀ v, listGet s index ≠ .ok v := by
    intro v hv
    rw [hget] at hv
    cases hv
  refine ⟨iff_of_false ?_ hno, fun v hv => absurd hv (hnone v)⟩
  rintro ⟨v, hv⟩
  exact hnone v hv

lemma indexAgrees_of_nonneg (h : Represents s xs) (hindex : 0 ≤ index) :
    IndexAgrees s xs index := by
  have hget := h.get index
  have hremoves := removesNode_iff h hindex
  by_cases hlt : index.toNat < xs.length
  · rw [List.getElem?_eq_getElem hlt] at hget
    refine ⟨iff_of_true ⟨_, hget⟩ (hremoves.mpr hlt), fun v hv => ?_⟩
    rw [hget] at hv
    obtain ⟨s', hs', hrep⟩ := h.deleteAt hindex
    refine ⟨xs.take index.toNat, xs[index.toNat].1, xs.drop (index.toNat + 1), s', ?_, ?_, hs', ?_⟩
    · cases hv
      have hdrop := List.drop_eq_getElem_cons hlt
      rw [← hdrop, List.take_append_drop]
    · rw [List.length_take]
      omega
    · rw [← List.eraseIdx_eq_take_drop_succ]
      exact hrep
  · rw [List.getElem?_eq_none (Nat.not_lt.mp hlt)] at hget
    exact indexAgrees_of_refused hget fun hr => hlt (hremoves.mp hr)

/-- On an empty list both refuse every index. -/
lemma indexAgrees_nil (h : Represents s []) : IndexAgrees s [] index := by
  have hget := h.get index
  rw [List.getElem?_nil] at hget
  refine indexAgrees_of_refused hget ?_
  rintro ⟨_, xs', _, _, hlen⟩
  simp at hlen

end

/-- **When the two functions agree.**  On every list, `list_get` and `list_delete_at` agree on an
index exactly when it is not negative or the list is empty. -/
theorem get_agrees_with_delete_iff (s : State) (xs : List (ℕ × ℤ)) (h : Represents s xs)
    (index : ℤ) : IndexAgrees s xs index ↔ 0 ≤ index ∨ xs = [] := by
  constructor
  · intro hagree
    by_contra hbad
    rw [not_or] at hbad
    have hneg : index < 0 := by omega
    cases xs with
    | nil => exact hbad.2 rfl
    | cons x xs =>
        have hget := h.get index
        rw [Int.toNat_of_nonpos (by omega)] at hget
        exact not_removesNode_of_neg h hneg (hagree.both.mp ⟨_, hget⟩)
  · rintro (hindex | rfl)
    · exact indexAgrees_of_nonneg h hindex
    · exact indexAgrees_nil h

/-- The position in the middle of a list of three values. -/
theorem get_agrees_with_delete_iff_middle :
    ∃ s₁ s₂ s xs, listPushFront Malloc.bump listCreate 30 = .ok s₁
      ∧ listPushFront Malloc.bump s₁ 20 = .ok s₂ ∧ listPushFront Malloc.bump s₂ 10 = .ok s
      ∧ Represents s xs ∧ payloads xs = [10, 20, 30] ∧ listGet s 1 = .ok 20
      ∧ IndexAgrees s xs 1 := by
  obtain ⟨s₁, hpush₁, hrep₁⟩ := represents_create.pushFront_ok (M := Malloc.bump) 30 (by decide)
  obtain ⟨s₂, hpush₂, hrep₂⟩ := hrep₁.pushFront_ok (M := Malloc.bump) 20 (by decide)
  obtain ⟨s, hpush, hrep⟩ := hrep₂.pushFront_ok (M := Malloc.bump) 10 (by simp [INT_MAX])
  exact ⟨s₁, s₂, s, _, hpush₁, hpush₂, hpush, hrep, rfl, hrep.get 1,
    (get_agrees_with_delete_iff s _ hrep 1).mpr (Or.inl (by decide))⟩

/-- At `-1` the list of one value shows its head and keeps it. -/
theorem get_at_minus_one :
    ∃ s xs, listPushFront Malloc.bump listCreate 10 = .ok s ∧ Represents s xs
      ∧ payloads xs = [10] ∧ listGet s (-1) = .ok 10 ∧ listDeleteAt s (-1) = .ok s
      ∧ ¬ IndexAgrees s xs (-1) := by
  obtain ⟨s, hpush, hrep⟩ := represents_create.pushFront_ok (M := Malloc.bump) 10 (by decide)
  have hget : listGet s (-1) = .ok 10 := hrep.get (-1)
  have hdel : listDeleteAt s (-1) = .ok s := listDeleteAt_neg (by decide)
  refine ⟨s, _, hpush, hrep, rfl, hget, hdel, fun hagree => ?_⟩
  exact not_removesNode_of_neg hrep (by decide) (hagree.both.mp ⟨10, hget⟩)

end CExercises.LinkedList
