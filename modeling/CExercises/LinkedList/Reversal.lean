import CExercises.LinkedList.Refinement

/-!
# Reversal in place

What `list_reverse` does to the whole store, and not only to the sequence of values.  The nodes of
the chain keep their values and are visited in the opposite order; no other node is written.  Since
that fixes every field of every node, reversing twice is no change at all.
-/

namespace CExercises.LinkedList

section

variable {m m' : Memory Node} {s s' s'' : State} {xs : List (ℕ × ℤ)} {a : ℕ}

lemma nodeView_injective : Function.Injective nodeView := by
  rintro ⟨v, p⟩ ⟨w, q⟩ h
  cases h
  rfl

/-- A chain's view of an address is all there is at it. -/
lemma cells_eq_of_view (h : m'.view nodeView a = m.view nodeView a) : m'.cells a = m.cells a :=
  Option.map_injective nodeView_injective h

/-- Nodes that are visited before and after carry the same value. -/
lemma value_eq_of_chain {p q : Ptr} {ys : List (ℕ × ℤ)} (h : Chain (m.view nodeView) p xs none)
    (h' : Chain (m'.view nodeView) q ys none) (hsub : xs ⊆ ys) (ha : a ∈ addrs xs) :
    (m'.cells a).map Node.value = (m.cells a).map Node.value := by
  obtain ⟨x, hx, rfl⟩ := List.mem_map.mp ha
  obtain ⟨r, hr⟩ := h.view_of_mem hx
  obtain ⟨r', hr'⟩ := h'.view_of_mem (hsub hx)
  obtain ⟨n, hn, hv⟩ := Memory.cells_of_view hr
  obtain ⟨n', hn', hv'⟩ := Memory.cells_of_view hr'
  have hvalue : n'.value = n.value := by
    rw [nodeView, Prod.mk.injEq] at hv hv'
    rw [hv.1, hv'.1]
  rw [hn, hn', Option.map_some, Option.map_some, hvalue]

/-- Two states that agree outside a chain, and both visit it in the same order, are the same. -/
lemma state_eq_of_chain (h : Chain (s.mem.view nodeView) s.list.head xs none)
    (h' : Chain (s'.mem.view nodeView) s'.list.head xs none)
    (hframe : ∀ b, b ∉ addrs xs → s'.mem.view nodeView b = s.mem.view nodeView b)
    (hbrk : s'.mem.brk = s.mem.brk) (hsize : s'.list.size = s.list.size) : s' = s := by
  obtain ⟨hhead, hviews⟩ := h'.view_eq h
  have hcells : s'.mem.cells = s.mem.cells := by
    funext b
    refine cells_eq_of_view ?_
    by_cases hb : b ∈ addrs xs
    · exact hviews b hb
    · exact hframe b hb
  have hmem : s'.mem = s.mem := Memory.ext_cells hcells hbrk
  rcases s with ⟨m, ⟨head, size⟩⟩
  rcases s' with ⟨m', ⟨head', size'⟩⟩
  cases hmem
  cases hhead
  cases hsize
  rfl

end

/-- **In-place reversal.**  On every store in which a chain leads from `head` to `NULL`, the chain
from the new head visits the same nodes in the opposite order, no value changes, nothing outside
the chain changes, and a second reversal restores the store and the header. -/
theorem list_reverse_in_place (s : State) (xs : List (ℕ × ℤ))
    (h : Chain (s.mem.view nodeView) s.list.head xs none) :
    ∃ s', listReverse s = .ok s'
      ∧ Chain (s'.mem.view nodeView) s'.list.head xs.reverse none
      ∧ (∀ a, (s'.mem.cells a).map Node.value = (s.mem.cells a).map Node.value)
      ∧ (∀ a, a ∉ addrs xs → s'.mem.cells a = s.mem.cells a)
      ∧ s'.list.size = s.list.size ∧ listReverse s' = .ok s := by
  obtain ⟨s', hrun, hchain, hframe, hbrk, hsize⟩ := listReverse_spec h
  obtain ⟨s'', hrun', hchain', hframe', hbrk', hsize'⟩ := listReverse_spec hchain
  rw [List.reverse_reverse] at hchain'
  have hout : ∀ a, a ∉ addrs xs → s'.mem.cells a = s.mem.cells a := fun a ha =>
    cells_eq_of_view (hframe a ha)
  refine ⟨s', hrun, hchain, fun a => ?_, hout, hsize, ?_⟩
  · by_cases ha : a ∈ addrs xs
    · exact value_eq_of_chain h hchain (fun x hx => List.mem_reverse.mpr hx) ha
    · rw [hout a ha]
  · have hback : s'' = s := by
      refine state_eq_of_chain h hchain' (fun b hb => ?_) (hbrk'.trans hbrk) (hsize'.trans hsize)
      rw [hframe' b (by simpa [addrs] using hb), hframe b hb]
    rw [hrun', hback]

/-- A list of two values. -/
theorem list_reverse_in_place_pair :
    ∃ s₁ s xs s', listPushFront Malloc.bump listCreate 20 = .ok s₁
      ∧ listPushFront Malloc.bump s₁ 10 = .ok s ∧ payloads xs = [10, 20]
      ∧ Chain (s.mem.view nodeView) s.list.head xs none ∧ listReverse s = .ok s'
      ∧ Chain (s'.mem.view nodeView) s'.list.head xs.reverse none ∧ listReverse s' = .ok s := by
  obtain ⟨s₁, hpush₁, h₁⟩ := represents_create.pushFront_ok (M := Malloc.bump) 20 (by decide)
  obtain ⟨s, hpush, h⟩ := h₁.pushFront_ok (M := Malloc.bump) 10 (by decide)
  obtain ⟨s', hrun, hchain, _, _, _, hback⟩ := list_reverse_in_place s _ h.chain
  exact ⟨s₁, s, _, s', hpush₁, hpush, rfl, h.chain, hrun, hchain, hback⟩

end CExercises.LinkedList
