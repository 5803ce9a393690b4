import CExercises.Core.Memory
import Mathlib.Data.List.Nodup
import Mathlib.Data.List.Perm.Basic

/-!
# Next-chains

A singly linked structure is a set of nodes, each carrying a payload and a `next` pointer.  What
the node type looks like does not matter: a `view` gives, for every live address, the payload and
the pointer stored there.

`Chain view p xs q` says that following `next` from `p` visits exactly the nodes `xs` (address and
payload, in order) and then stands at `q`.  With `q = none` it describes a whole list, with
`q = some _` a segment of one.

The facts the programs need are all here.

* `chain_append` splits a chain anywhere, which is how a loop invariant talks about the part
  already walked and the part still ahead.
* `Chain.congr` is the frame rule: a chain does not notice changes at addresses it does not visit.
* `Chain.unique` and `Chain.nodup`: the chain from a pointer to `NULL` is determined by the
  pointer, and therefore cannot visit an address twice.  Acyclicity is not a separate invariant.
-/

namespace CExercises

variable {β : Type}

/-- Following `next` from `p` visits the nodes `xs` and ends at `q`. -/
def Chain (view : ℕ → Option (β × Ptr)) : Ptr → List (ℕ × β) → Ptr → Prop
  | p, [], q => p = q
  | p, x :: xs, q => p = some x.1 ∧ ∃ p', view x.1 = some (x.2, p') ∧ Chain view p' xs q

/-- The addresses a chain visits. -/
abbrev addrs (xs : List (ℕ × β)) : List ℕ := xs.map Prod.fst

/-- The payloads along a chain. -/
abbrev payloads (xs : List (ℕ × β)) : List β := xs.map Prod.snd

section

variable {view view' : ℕ → Option (β × Ptr)} {p q : Ptr} {xs ys : List (ℕ × β)}

@[simp] lemma chain_nil : Chain view p [] q ↔ p = q := Iff.rfl

@[simp] lemma chain_cons {x : ℕ × β} :
    Chain view p (x :: xs) q
      ↔ p = some x.1 ∧ ∃ p', view x.1 = some (x.2, p') ∧ Chain view p' xs q := Iff.rfl

/-- A chain can be cut anywhere. -/
lemma chain_append :
    Chain view p (xs ++ ys) q ↔ ∃ r, Chain view p xs r ∧ Chain view r ys q := by
  induction xs generalizing p with
  | nil => simp
  | cons x xs ih =>
      simp only [List.cons_append, chain_cons, ih]
      constructor
      · rintro ⟨hp, p', hv, r, h1, h2⟩
        exact ⟨r, ⟨hp, p', hv, h1⟩, h2⟩
      · rintro ⟨r, ⟨hp, p', hv, h1⟩, h2⟩
        exact ⟨hp, p', hv, r, h1, h2⟩

/-- **The frame rule.**  A chain only looks at the addresses it visits. -/
lemma Chain.congr (h : Chain view p xs q) (hv : ∀ a ∈ addrs xs, view' a = view a) :
    Chain view' p xs q := by
  induction xs generalizing p with
  | nil => exact h
  | cons x xs ih =>
      obtain ⟨hp, p', hx, hrest⟩ := h
      refine ⟨hp, p', ?_, ih hrest fun a ha => hv a (List.mem_cons_of_mem _ ha)⟩
      rw [hv x.1 List.mem_cons_self, hx]

lemma Chain.update {a : ℕ} {o : Option (β × Ptr)} (h : Chain view p xs q) (ha : a ∉ addrs xs) :
    Chain (Function.update view a o) p xs q := by
  refine h.congr fun b hb => Function.update_of_ne ?_ _ _
  rintro rfl
  exact ha hb

lemma Chain.view_of_mem (h : Chain view p xs q) {x : ℕ × β} (hx : x ∈ xs) :
    ∃ p', view x.1 = some (x.2, p') := by
  induction xs generalizing p with
  | nil => cases hx
  | cons y ys ih =>
      obtain ⟨_, p', hy, hrest⟩ := h
      rcases List.mem_cons.mp hx with rfl | hx
      · exact ⟨p', hy⟩
      · exact ih hrest hx

/-- Every visited address is live. -/
lemma Chain.ne_none_of_mem (h : Chain view p xs q) {a : ℕ} (ha : a ∈ addrs xs) :
    view a ≠ none := by
  obtain ⟨x, hx, rfl⟩ := List.mem_map.mp ha
  obtain ⟨p', hp⟩ := h.view_of_mem hx
  simp [hp]

lemma Chain.not_mem_of_eq_none (h : Chain view p xs q) {a : ℕ} (ha : view a = none) :
    a ∉ addrs xs := fun hmem => h.ne_none_of_mem hmem ha

lemma Chain.eq_nil_iff (h : Chain view p xs none) : xs = [] ↔ p = none := by
  cases xs with
  | nil => simpa using h
  | cons x xs => simp [h.1]

/-- **The chain to `NULL` is determined by where it starts.** -/
lemma Chain.unique (h : Chain view p xs none) (h' : Chain view p ys none) : xs = ys := by
  induction xs generalizing p ys with
  | nil =>
      obtain rfl : p = none := h
      exact (h'.eq_nil_iff.mpr rfl).symm
  | cons x xs ih =>
      obtain ⟨rfl, p', hx, hrest⟩ := h
      cases ys with
      | nil => cases h'
      | cons y ys =>
          obtain ⟨hxy, p'', hy, hrest'⟩ := h'
          rw [← Option.some.inj hxy, hx, Option.some.injEq, Prod.mk.injEq] at hy
          obtain ⟨hpay, rfl⟩ := hy
          rw [ih hrest hrest', Prod.ext (Option.some.inj hxy) hpay]

/-- Chains to `NULL` along the same nodes start alike, and the heaps agree on these nodes. -/
lemma Chain.view_eq {p' : Ptr} (h : Chain view p xs none) (h' : Chain view' p' xs none) :
    p = p' ∧ ∀ a ∈ addrs xs, view a = view' a := by
  induction xs generalizing p p' with
  | nil => exact ⟨h.trans (Eq.symm h'), by simp⟩
  | cons x xs ih =>
      obtain ⟨rfl, q, hq, hrest⟩ := h
      obtain ⟨rfl, q', hq', hrest'⟩ := h'
      obtain ⟨rfl, hviews⟩ := ih hrest hrest'
      refine ⟨rfl, fun a ha => ?_⟩
      rcases List.mem_cons.mp ha with rfl | ha
      · rw [hq, hq']
      · exact hviews a ha

/-- **A chain that reaches `NULL` is acyclic.**  A second visit to an address would have to be
followed by the same nodes as the first, and there are fewer of them left. -/
lemma Chain.nodup (h : Chain view p xs none) : (addrs xs).Nodup := by
  induction xs generalizing p with
  | nil => exact List.nodup_nil
  | cons x xs ih =>
      have hx := h
      obtain ⟨rfl, p', _, hrest⟩ := h
      refine List.nodup_cons.mpr ⟨fun hmem => ?_, ih hrest⟩
      obtain ⟨y, hy, hyx⟩ := List.mem_map.mp hmem
      obtain ⟨as, bs, rfl⟩ := List.append_of_mem hy
      obtain ⟨r, _, htail⟩ := chain_append.mp hrest
      have hr : r = some x.1 := by rw [htail.1, hyx]
      subst hr
      have hlen := congrArg List.length (hx.unique htail)
      simp at hlen
      omega

/-! ### The surgeries

Everything the programs do to a list is one of these: a node is put in front, a node is hung after
another one, the node after another one is cut out, the first node is cut out, the payload of a
node is overwritten.
-/

lemma Chain.cons_update {a : ℕ} {v : β} (h : Chain view p xs q) (ha : a ∉ addrs xs) :
    Chain (Function.update view a (some (v, p))) (some a) ((a, v) :: xs) q :=
  ⟨rfl, p, by simp, h.update ha⟩

/-- Redirect the last node of a segment. -/
lemma Chain.redirect_last {a : ℕ} {v : β} {r : Ptr}
    (h : Chain view p (xs ++ [(a, v)]) q) (ha : a ∉ addrs xs) :
    Chain (Function.update view a (some (v, r))) p (xs ++ [(a, v)]) r := by
  obtain ⟨s, h1, h2⟩ := chain_append.mp h
  have hs : s = some a := h2.1
  subst hs
  exact chain_append.mpr ⟨some a, h1.update ha, rfl, r, by simp, rfl⟩

/-- A node in the middle of a chain to `NULL`, with what lies before and behind it. -/
lemma Chain.split_at {a : ℕ} {w : β} (h : Chain view p (xs ++ (a, w) :: ys) none) :
    ∃ r, view a = some (w, r) ∧ Chain view p xs (some a) ∧ Chain view r ys none
      ∧ a ∉ addrs xs ∧ a ∉ addrs ys := by
  have hnd := h.nodup
  obtain ⟨s, h1, h2⟩ := chain_append.mp h
  obtain ⟨hs, r, hr, h3⟩ := h2
  subst hs
  simp only [addrs, List.map_append, List.map_cons, List.nodup_append, List.nodup_cons] at hnd
  refine ⟨r, hr, h1, h3, ?_, hnd.2.1.1⟩
  intro hmem
  exact hnd.2.2 a hmem a List.mem_cons_self rfl

lemma Chain.insert_after {a n : ℕ} {w v : β} (h : Chain view p (xs ++ (a, w) :: ys) none)
    (hn : view n = none) :
    ∃ r, view a = some (w, r)
      ∧ Chain (Function.update (Function.update view n (some (v, r))) a (some (w, some n))) p
          (xs ++ (a, w) :: (n, v) :: ys) none := by
  have hnot := h.not_mem_of_eq_none hn
  simp only [addrs, List.map_append, List.map_cons, List.mem_append, List.mem_cons,
    not_or] at hnot
  obtain ⟨hnx, hna, hny⟩ := hnot
  obtain ⟨r, hr, hx, hy, hax, hay⟩ := h.split_at
  refine ⟨r, hr, chain_append.mpr ⟨some a, (hx.update hnx).update hax, rfl, some n, by simp, ?_⟩⟩
  refine ⟨rfl, r, ?_, (hy.update hny).update hay⟩
  rw [Function.update_of_ne hna]
  simp

lemma Chain.unlink_after {a b : ℕ} {w u : β}
    (h : Chain view p (xs ++ (a, w) :: (b, u) :: ys) none) :
    ∃ r, view a = some (w, some b) ∧ view b = some (u, r) ∧ a ≠ b
      ∧ Chain (Function.update (Function.update view a (some (w, r))) b none) p
          (xs ++ (a, w) :: ys) none := by
  obtain ⟨s, ha, hx, ⟨hs, r, hb, hy⟩, hax, hay⟩ := h.split_at
  subst hs
  simp only [addrs, List.map_cons, List.mem_cons, not_or] at hay
  have hb' : Chain view p ((xs ++ [(a, w)]) ++ (b, u) :: ys) none := by simpa using h
  obtain ⟨_, _, _, _, hbx, hby⟩ := hb'.split_at
  simp only [addrs, List.map_append, List.map_cons, List.map_nil, List.mem_append,
    List.mem_singleton, not_or] at hbx
  refine ⟨r, ha, hb, hay.1, chain_append.mpr
    ⟨some a, (hx.update hax).update hbx.1, rfl, r, ?_, (hy.update hay.2).update hby⟩⟩
  rw [Function.update_of_ne hay.1]
  simp

lemma Chain.set_payload {a : ℕ} {w u : β} (h : Chain view p (xs ++ (a, w) :: ys) none) :
    ∃ r, view a = some (w, r)
      ∧ Chain (Function.update view a (some (u, r))) p (xs ++ (a, u) :: ys) none := by
  rcases h.split_at with ⟨r, hr, hx, hy, hax, hay⟩
  exact ⟨r, hr, chain_append.mpr ⟨some a, hx.update hax, rfl, r, by simp, hy.update hay⟩⟩

lemma Chain.unlink_first {a : ℕ} {v : β} (h : Chain view p ((a, v) :: xs) none) :
    ∃ r, p = some a ∧ view a = some (v, r) ∧ Chain (Function.update view a none) r xs none := by
  have hnd := h.nodup
  obtain ⟨hp, r, ha, hxs⟩ := h
  exact ⟨r, hp, ha, hxs.update (List.nodup_cons.mp hnd).1⟩

end

/-! ## Several chains in one heap -/

/-- Chains from several roots that share no node. -/
structure Forest {ι : Type} (view : ℕ → Option (β × Ptr)) (roots : ι → Ptr)
    (trees : ι → List (ℕ × β)) : Prop where
  chain : ∀ i, Chain view (roots i) (trees i) none
  disjoint : ∀ i j, i ≠ j → ∀ a ∈ addrs (trees i), a ∉ addrs (trees j)

/-- **Local surgery in a forest.**  Work on the chain of one root leaves the forest intact as long
as it writes to no node of another chain and takes no node from one. -/
lemma Forest.replace {ι : Type} [DecidableEq ι] {view view' : ℕ → Option (β × Ptr)}
    {roots : ι → Ptr} {trees : ι → List (ℕ × β)} (h : Forest view roots trees) (i : ι) {p : Ptr}
    {xs : List (ℕ × β)} (hchain : Chain view' p xs none)
    (hframe : ∀ j, j ≠ i → ∀ a ∈ addrs (trees j), view' a = view a)
    (hsep : ∀ a ∈ addrs xs, ∀ j, j ≠ i → a ∉ addrs (trees j)) :
    Forest view' (Function.update roots i p) (Function.update trees i xs) where
  chain := by
    intro j
    by_cases hj : j = i
    · subst hj
      simpa using hchain
    · rw [Function.update_of_ne hj, Function.update_of_ne hj]
      exact (h.chain j).congr (hframe j hj)
  disjoint := by
    intro j k hjk a ha
    by_cases hj : j = i
    · subst hj
      rw [Function.update_self] at ha
      rw [Function.update_of_ne (Ne.symm hjk)]
      exact hsep a ha k (Ne.symm hjk)
    · rw [Function.update_of_ne hj] at ha
      by_cases hk : k = i
      · subst hk
        rw [Function.update_self]
        exact fun hmem => hsep a hmem j hj ha
      · rw [Function.update_of_ne hk]
        exact h.disjoint j k hjk a ha

/-! ## Chains through a heap -/

section

variable {α : Type} {m : Memory α} {f : α → β × Ptr} {p q : Ptr} {xs : List (ℕ × β)}

/-- What a heap shows of its blocks. -/
def Memory.view (m : Memory α) (f : α → β × Ptr) : ℕ → Option (β × Ptr) :=
  fun a => (m.cells a).map f

@[simp] lemma Memory.view_write {a : ℕ} {o : Option α} (ha : a < m.brk) :
    (m.write a o ha).view f = Function.update (m.view f) a (o.map f) := by
  funext b
  simp only [Memory.view, Memory.write_cells, Function.update_apply]
  split <;> rfl

@[simp] lemma Malloc.view_alloc (M : Malloc α) (a : α) :
    (M.alloc m a).2.view f = Function.update (m.view f) (M.place m) (some (f a)) := by
  funext b
  simp only [Memory.view, Malloc.alloc_cells, Function.update_apply]
  split <;> rfl

lemma Malloc.view_place (M : Malloc α) : m.view f (M.place m) = none := by
  simp [Memory.view, M.fresh m]

lemma Memory.cells_of_view {a : ℕ} {v : β × Ptr} (h : m.view f a = some v) :
    ∃ n, m.cells a = some n ∧ f n = v := by
  simpa [Memory.view, Option.map_eq_some_iff] using h

lemma Memory.load_of_view {a : ℕ} {v : β × Ptr} (h : m.view f a = some v) :
    ∃ n, m.load (some a) = .ok n ∧ f n = v := by
  rcases Memory.cells_of_view h with ⟨n, hn, hv⟩
  exact ⟨n, Memory.load_of_live hn, hv⟩

lemma Memory.store_of_view {a : ℕ} {v : β × Ptr} (h : m.view f a = some v) (n : α) :
    ∃ m', m.store (some a) n = .ok m'
      ∧ m'.view f = Function.update (m.view f) a (some (f n)) ∧ m'.brk = m.brk := by
  rcases Memory.cells_of_view h with ⟨n', hn, _⟩
  exact ⟨m.write a (some n) (Memory.lt_brk hn), Memory.store_of_live hn n, by simp, rfl⟩

lemma Memory.free_of_view {a : ℕ} {v : β × Ptr} (h : m.view f a = some v) :
    ∃ m', m.free (some a) = .ok m' ∧ m'.view f = Function.update (m.view f) a none := by
  rcases Memory.cells_of_view h with ⟨n, hn, _⟩
  exact ⟨m.write a none (Memory.lt_brk hn), Memory.free_of_live hn, by simp⟩

/-- **No chain is longer than the heap.**  This is why a walk that takes more than `brk` steps is
one that never ends. -/
lemma Chain.length_le_brk (h : Chain (m.view f) p xs none) : xs.length ≤ m.brk := by
  have hsub : addrs xs ⊆ List.range m.brk := by
    intro a ha
    obtain ⟨x, hx, rfl⟩ := List.mem_map.mp ha
    obtain ⟨p', hp⟩ := h.view_of_mem hx
    obtain ⟨n, hn, _⟩ := Memory.cells_of_view hp
    exact List.mem_range.mpr (Memory.lt_brk hn)
  have hle := (List.subperm_of_subset h.nodup hsub).length_le
  simpa using hle

end

end CExercises
