import CExercises.Core.Chain
import Mathlib.Data.Finset.Card
import Mathlib.Data.Finset.Range

/-!
# Counting live blocks

Only finitely many blocks of a heap are live, so they can be counted: `malloc` adds one, `free`
takes one away, a store changes nothing.  This is how a leak is ruled out.  A component that keeps a
count of its own in step with the number of live blocks has no other blocks, and once its count is
back at zero the heap is empty.

The two loops here are the ones that every list in the sources has: giving back the nodes of a chain
one after the other, and printing them with a separator in between.
-/

namespace CExercises

variable {α β : Type}

namespace Memory

/-- The addresses of the live blocks. -/
def live (m : Memory α) : Finset ℕ := {p ∈ Finset.range m.brk | (m.cells p).isSome}

/-- How many blocks are live. -/
def blocks (m : Memory α) : ℕ := m.live.card

section

variable {m m' : Memory α} {p : ℕ}

@[simp] lemma mem_live : p ∈ m.live ↔ m.cells p ≠ none := by
  simp only [live, Finset.mem_filter, Finset.mem_range, Option.isSome_iff_ne_none]
  refine ⟨And.right, fun h => ⟨?_, h⟩⟩
  obtain ⟨a, ha⟩ := Option.ne_none_iff_exists'.mp h
  exact lt_brk ha

@[simp] lemma blocks_empty : (empty : Memory α).blocks = 0 := rfl

lemma blocks_eq_zero : m.blocks = 0 ↔ ∀ p, m.cells p = none := by
  rw [blocks, Finset.card_eq_zero, Finset.eq_empty_iff_forall_notMem]
  simp

lemma blocks_eq_one (hp : m.cells p ≠ none) (hother : ∀ q, q ≠ p → m.cells q = none) :
    m.blocks = 1 := by
  have hlive : m.live = {p} := by
    ext q
    rw [mem_live, Finset.mem_singleton]
    constructor
    · intro hq
      by_contra hne
      exact hq (hother q hne)
    · rintro rfl
      exact hp
  rw [blocks, hlive, Finset.card_singleton]

/-- Heaps with blocks at the same addresses, whatever is in them. -/
lemma blocks_congr {β : Type} {m' : Memory β} (h : ∀ p, m'.cells p = none ↔ m.cells p = none) :
    m'.blocks = m.blocks := by
  have hlive : m'.live = m.live := by
    ext p
    rw [mem_live, mem_live, ne_eq, ne_eq, h p]
  rw [blocks, blocks, hlive]

lemma blocks_store {q : Ptr} {a : α} (h : m.store q a = .ok m') : m'.blocks = m.blocks := by
  cases q with
  | none => cases h
  | some p =>
      cases hp : m.cells p with
      | none =>
          simp only [store] at h
          split at h
          · cases h
          · rename_i h'
            rw [hp] at h'
            cases h'
      | some b =>
          rw [store_of_live hp] at h
          cases h
          refine blocks_congr fun q => ?_
          simp only [write_cells, Function.update_apply]
          split
          · rename_i hq
            simp [hq, hp]
          · rfl

lemma blocks_free {q : Ptr} (hq : q ≠ none) (h : m.free q = .ok m') :
    m'.blocks + 1 = m.blocks := by
  obtain ⟨p, rfl⟩ := Option.ne_none_iff_exists'.mp hq
  cases hp : m.cells p with
  | none =>
      simp only [free] at h
      split at h
      · cases h
      · rename_i h'
        rw [hp] at h'
        cases h'
  | some b =>
      rw [free_of_live hp] at h
      cases h
      have hmem : p ∈ m.live := by simp [hp]
      have hlive : (m.write p none (lt_brk hp)).live = m.live.erase p := by
        ext q
        rw [mem_live, Finset.mem_erase, mem_live, write_cells, Function.update_apply]
        split
        · rename_i hq
          simp [hq]
        · rename_i hq
          simp [hq]
      rw [blocks, hlive, blocks]
      exact Finset.card_erase_add_one hmem

end

end Memory

@[simp] lemma Malloc.blocks_alloc (M : Malloc α) (m : Memory α) (a : α) :
    (M.alloc m a).2.blocks = m.blocks + 1 := by
  have hnew : M.place m ∉ m.live := by simp [M.fresh m]
  have hlive : (M.alloc m a).2.live = insert (M.place m) m.live := by
    ext q
    rw [Memory.mem_live, Finset.mem_insert, Memory.mem_live, Malloc.alloc_cells,
      Function.update_apply]
    split
    · rename_i hq
      simp [hq]
    · rename_i hq
      simp [hq]
  rw [Memory.blocks, hlive, Finset.card_insert_of_notMem hnew, Memory.blocks]

section

variable {f : α → β × Ptr} {m : Memory α} {p : Ptr} {xs : List (ℕ × β)}

/-- **A chain that is as long as the heap has blocks is the whole heap.** -/
lemma Chain.covers (h : Chain (m.view f) p xs none) (hlen : m.blocks = xs.length) {a : ℕ}
    (ha : m.cells a ≠ none) : a ∈ addrs xs := by
  have hsub : (addrs xs).toFinset ⊆ m.live := by
    intro b hb
    obtain ⟨x, hx, rfl⟩ := List.mem_map.mp (List.mem_toFinset.mp hb)
    obtain ⟨p', hp⟩ := h.view_of_mem hx
    obtain ⟨n, hn, _⟩ := Memory.cells_of_view hp
    simp [hn]
  have hcard : (addrs xs).toFinset.card = xs.length := by
    rw [List.toFinset_card_of_nodup h.nodup, List.length_map]
  have heq : (addrs xs).toFinset = m.live :=
    Finset.eq_of_subset_of_card_le hsub (by rw [hcard, ← hlen]; exact Nat.le_refl _)
  rw [← List.mem_toFinset, heq]
  exact Memory.mem_live.mpr ha

/-! ## Giving a chain back -/

/-- `while (cur) { next = cur->next; free(cur); cur = next; }` -/
def freeChain (f : α → β × Ptr) : ℕ → Memory α → Ptr → Except Stop (Memory α)
  | 0, _, _ => .error .diverges
  | fuel + 1, m, cur => do
      if cur = none then return m
      let n ← m.load cur
      let m ← m.free cur
      freeChain f fuel m (f n).2

/-- Every node of the chain is given back once, and nothing else is touched. -/
lemma freeChain_eq : ∀ (fuel : ℕ) {m : Memory α} {p : Ptr} {xs : List (ℕ × β)},
    Chain (m.view f) p xs none → xs.length < fuel →
      ∃ m', freeChain f fuel m p = .ok m' ∧ m'.blocks + xs.length = m.blocks
        ∧ ∀ a ∉ addrs xs, m'.view f a = m.view f a
  | 0, _, _, _, _, hlen => absurd hlen (Nat.not_lt_zero _)
  | fuel + 1, m, p, [], h, _ => by
      obtain rfl : p = none := h
      exact ⟨m, by simp [freeChain], by simp, fun _ _ => rfl⟩
  | fuel + 1, m, p, x :: xs, h, hlen => by
      obtain ⟨r, rfl, hx, hrest⟩ := h.unlink_first
      obtain ⟨n, hn, hv⟩ := Memory.load_of_view hx
      obtain ⟨m₁, hm₁, hview⟩ := Memory.free_of_view hx
      rw [← hview] at hrest
      obtain ⟨m', hm', hblocks, hframe⟩ :=
        freeChain_eq fuel hrest (by simp only [List.length_cons] at hlen; omega)
      refine ⟨m', ?_, ?_, ?_⟩
      · simp [freeChain, hn, hm₁, hv, hm']
      · have hone := Memory.blocks_free (Option.some_ne_none x.1) hm₁
        rw [List.length_cons]
        omega
      · intro a ha
        rw [addrs, List.map_cons, List.mem_cons, not_or] at ha
        rw [hframe a ha.2, hview, Function.update_of_ne ha.1]

/-! ## Printing a chain -/

/-- `for (; cur; cur = cur->next) { print(cur); if (cur->next) print(sep); }` -/
def printChain (f : α → β × Ptr) (text : β → String) (sep : String) :
    ℕ → Memory α → Ptr → Except Stop String
  | 0, _, _ => .error .diverges
  | fuel + 1, m, cur => do
      if cur = none then return ""
      let n ← m.load cur
      let rest ← printChain f text sep fuel m (f n).2
      return text (f n).1 ++ (if (f n).2 = none then "" else sep) ++ rest

/-- The payloads come out in order, with the separator between any two of them. -/
lemma printChain_eq (text : β → String) (sep : String) : ∀ (fuel : ℕ) {p : Ptr}
    {xs : List (ℕ × β)}, Chain (m.view f) p xs none → xs.length < fuel →
      printChain f text sep fuel m p = .ok (sep.intercalate ((payloads xs).map text))
  | 0, _, _, _, hlen => absurd hlen (Nat.not_lt_zero _)
  | fuel + 1, p, [], h, _ => by
      obtain rfl : p = none := h
      simp [printChain]
  | fuel + 1, p, x :: xs, h, hlen => by
      obtain ⟨rfl, r, hx, hrest⟩ := h
      obtain ⟨n, hn, hv⟩ := Memory.load_of_view hx
      have ih := printChain_eq text sep fuel hrest
        (by simp only [List.length_cons] at hlen; omega)
      have hr := hrest.eq_nil_iff
      simp only [printChain, reduceCtorEq, if_false, hn, ok_bind, hv, ih, pure_eq_ok]
      cases xs with
      | nil => simp [hr.mp rfl]
      | cons y ys =>
          have hne : r ≠ none := fun he => by simpa using hr.mpr he
          simp [hne, String.append_assoc]

end

end CExercises
