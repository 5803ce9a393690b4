import CExercises.HashTable.Def
import Mathlib.Data.List.Forall2

/-!
# The table as a family of chains

The heap level of the hash table.  `Holds s chains` says that bucket `i` heads the chain
`chains i` and that no entry hangs in two buckets; each function of the source is then described
by what it does to `chains`.

The search loop gets its two outcomes (`findFrom_hit`, `findFrom_miss`).  `rehash` is the delicate
one: it overwrites the `next` field of the very entry it is standing on, and feeds the new chains
while the old ones are still being taken apart.  `rehashChain_eq` carries the invariant over one
old chain, with a frame clause that keeps the chains not yet reached, and `rehash_eq` over all of
them: the new chain of bucket `j` is what of the old table hashes to `j`, in reverse.
-/

namespace CExercises.HashTable

/-- An entry in a chain: its address, its key and its value. -/
abbrev Item := ℕ × (CStr × ℤ)

/-- What an entry shows to a chain. -/
def entryView (e : Entry) : (CStr × ℤ) × Ptr := ((e.key, e.value), e.next)

/-- The head of bucket `i`; `NULL` beyond the end of the array. -/
def bucketPtr (map : HashMap) (i : ℕ) : Ptr := (map.buckets[i]?).getD none

/-- The buckets head the chains `chains`. -/
structure Holds (s : State) (chains : ℕ → List Item) : Prop where
  length : s.map.buckets.length = s.map.capacity
  forest : Forest (s.mem.view entryView) (bucketPtr s.map) chains

section

variable {s : State} {chains : ℕ → List Item}

/-- A fresh array of buckets, as `calloc` returns it. -/
lemma holds_fresh (m : Memory Entry) (capacity : ℕ) :
    Holds ⟨m, ⟨List.replicate capacity none, capacity, 0⟩⟩ (fun _ => []) where
  length := List.length_replicate
  forest :=
    { chain := by
        intro i
        show ((List.replicate capacity none)[i]?).getD none = none
        rw [List.getElem?_replicate]
        split <;> rfl
      disjoint := by simp }

lemma Holds.loadBucket (h : Holds s chains) {i : ℕ} (hi : i < s.map.capacity) :
    loadBucket s.map i = .ok (bucketPtr s.map i) := by
  have hlt : i < s.map.buckets.length := by rw [h.length]; exact hi
  simp [HashTable.loadBucket, bucketPtr, List.getElem?_eq_getElem hlt]

lemma storeBucket_eq {map : HashMap} {i : ℕ} (hi : i < map.buckets.length) (p : Ptr) :
    ∃ map', storeBucket map i p = .ok map' ∧ bucketPtr map' = Function.update (bucketPtr map) i p
      ∧ map'.capacity = map.capacity ∧ map'.count = map.count
      ∧ map'.buckets.length = map.buckets.length := by
  refine ⟨{ map with buckets := map.buckets.set i p }, by simp [storeBucket, hi], ?_, rfl, rfl,
    by simp⟩
  funext j
  simp only [bucketPtr, List.getElem?_set, Function.update_apply]
  by_cases hj : j = i
  · subst hj
    simp [hi]
  · simp [hj, Ne.symm hj]

lemma load_eq {m : Memory Entry} {a : ℕ} {w : CStr × ℤ} {p : Ptr}
    (h : m.view entryView a = some (w, p)) : m.load (some a) = .ok ⟨w.1, w.2, p⟩ := by
  rcases Memory.load_of_view h with ⟨e, he, hv⟩
  cases hv
  exact he

lemma storeNext_eq {m : Memory Entry} {a : ℕ} {w : CStr × ℤ} {p : Ptr}
    (h : m.view entryView a = some (w, p)) (q : Ptr) :
    ∃ m', storeNext m (some a) q = .ok m'
      ∧ m'.view entryView = Function.update (m.view entryView) a (some (w, q))
      ∧ m'.brk = m.brk := by
  rcases Memory.store_of_view h ⟨w.1, w.2, q⟩ with ⟨m', hm', hview, hbrk⟩
  exact ⟨m', by simp [storeNext, load_eq h, hm'], hview, hbrk⟩

end

/-! ## Searching a chain -/

section

variable {m : Memory Entry} {key : CStr}

/-- The key is not in the chain: the loop runs to its end. -/
lemma findFrom_miss : ∀ (fuel : ℕ) (prev cur : Ptr) (xs : List Item),
    Chain (m.view entryView) cur xs none → (∀ x ∈ xs, x.2.1 ≠ key) → xs.length < fuel →
      ∃ p, findFrom m key fuel prev cur = .ok (p, none)
  | 0, _, _, _, _, _, hf => absurd hf (by omega)
  | fuel + 1, prev, cur, [], h, _, _ => by
      have hcur : cur = none := h
      exact ⟨prev, by simp [findFrom, hcur]⟩
  | fuel + 1, prev, cur, x :: xs, h, hkey, hf => by
      rcases h with ⟨hcur, p', hx, hrest⟩
      subst hcur
      rcases findFrom_miss fuel (some x.1) p' xs hrest
        (fun y hy => hkey y (List.mem_cons_of_mem _ hy)) (by simp at hf; omega) with ⟨p, hp⟩
      have hne : CStr.strcmp x.2.1 key ≠ 0 := fun h0 =>
        hkey x List.mem_cons_self ((CStr.strcmp_eq_zero_iff _ _).mp h0)
      exact ⟨p, by simp [findFrom, load_eq hx, hne, hp]⟩

/-- The key is in the chain: the loop stops on its entry, and `prev` is the entry before. -/
lemma findFrom_hit : ∀ (fuel : ℕ) (prev cur : Ptr) (ys zs : List Item) (x : Item),
    Chain (m.view entryView) cur (ys ++ x :: zs) none → (∀ y ∈ ys, y.2.1 ≠ key) → x.2.1 = key →
      ys.length < fuel →
      findFrom m key fuel prev cur = .ok ((ys.getLast?.map Prod.fst).or prev, some x.1)
  | 0, _, _, _, _, _, _, _, _, hf => absurd hf (by omega)
  | fuel + 1, prev, cur, [], zs, x, h, _, hx, _ => by
      rcases h with ⟨hcur, p', hview, _⟩
      subst hcur
      have h0 : CStr.strcmp x.2.1 key = 0 := (CStr.strcmp_eq_zero_iff _ _).mpr hx
      simp [findFrom, load_eq hview, h0]
  | fuel + 1, prev, cur, y :: ys, zs, x, h, hkey, hx, hf => by
      rcases h with ⟨hcur, p', hy, hrest⟩
      subst hcur
      have ih := findFrom_hit fuel (some y.1) p' ys zs x hrest
        (fun z hz => hkey z (List.mem_cons_of_mem _ hz)) hx (by simp at hf; omega)
      have hne : CStr.strcmp y.2.1 key ≠ 0 := fun h0 =>
        hkey y List.mem_cons_self ((CStr.strcmp_eq_zero_iff _ _).mp h0)
      have hlast : (((y :: ys).getLast?).map Prod.fst).or prev
          = (ys.getLast?.map Prod.fst).or (some y.1) := by
        cases ys with
        | nil => rfl
        | cons z zs =>
            rw [List.getLast?_cons_cons]
            simp [List.getLast?_eq_some_getLast]
      rw [hlast]
      simp [findFrom, load_eq hy, hne, ih]

/-- A chain either has no entry for the key, or a first one. -/
lemma key_cases (xs : List Item) (key : CStr) :
    (∀ x ∈ xs, x.2.1 ≠ key) ∨
      ∃ ys x zs, xs = ys ++ x :: zs ∧ x.2.1 = key ∧ ∀ y ∈ ys, y.2.1 ≠ key := by
  cases hfind : xs.find? (fun x => x.2.1 = key) with
  | none =>
      left
      simpa using hfind
  | some x =>
      right
      rcases List.find?_eq_some_iff_append.mp hfind with ⟨hx, ys, zs, hsplit, hys⟩
      exact ⟨ys, x, zs, hsplit, by simpa using hx, by simpa using hys⟩

end

/-! ## Rehashing -/

/-- Put one entry in front of the chain its key belongs to. -/
def place (capacity : ℕ) (new : ℕ → List Item) (x : Item) : ℕ → List Item :=
  Function.update new (bucketIndex x.2.1 capacity) (x :: new (bucketIndex x.2.1 capacity))

/-- All entries of a table, bucket by bucket. -/
def entries (chains : ℕ → List Item) (capacity : ℕ) : List Item :=
  (List.range capacity).flatMap chains

/-- Placing a list of entries one by one reverses, bucket by bucket, what falls into it. -/
lemma foldl_place (capacity : ℕ) : ∀ (xs : List Item) (new : ℕ → List Item) (j : ℕ),
    xs.foldl (place capacity) new j
      = (xs.filter fun x => bucketIndex x.2.1 capacity = j).reverse ++ new j := by
  intro xs
  induction xs with
  | nil =>
      intro new j
      rfl
  | cons x xs ih =>
      intro new j
      rw [List.foldl_cons, ih, place, List.filter_cons]
      by_cases hj : bucketIndex x.2.1 capacity = j
      · subst hj
        simp
      · rw [Function.update_of_ne (Ne.symm hj)]
        simp [hj]

lemma bucketIndex_lt (key : CStr) {capacity : ℕ} (h : 0 < capacity) :
    bucketIndex key capacity < capacity := Nat.mod_lt _ h

/-- **Hanging an entry in front of a bucket.**  `m₀` is the heap in which the entry is ready; apart
from the entry it is the heap of the table, and no chain of the table visits the entry yet. -/
lemma Holds.hangFront {s : State} {chains : ℕ → List Item} (h : Holds s chains) {i a : ℕ}
    {m₀ : Memory Entry} {w : CStr × ℤ} {p : Ptr} (hi : i < s.map.capacity)
    (ha : m₀.view entryView a = some (w, p))
    (hview₀ : ∀ o, Function.update (m₀.view entryView) a o
      = Function.update (s.mem.view entryView) a o)
    (hfresh : ∀ j, a ∉ addrs (chains j)) :
    ∃ m map, storeNext m₀ (some a) (bucketPtr s.map i) = .ok m
      ∧ storeBucket s.map i (some a) = .ok map
      ∧ m.view entryView
          = Function.update (s.mem.view entryView) a (some (w, bucketPtr s.map i))
      ∧ map.capacity = s.map.capacity ∧ map.count = s.map.count
      ∧ ∀ n, Holds ⟨m, { map with count := n }⟩
          (Function.update chains i ((a, w) :: chains i)) := by
  rcases storeNext_eq ha (bucketPtr s.map i) with ⟨m, hm, hview, _⟩
  rw [hview₀] at hview
  rcases storeBucket_eq (by rw [h.length]; exact hi) (some a) with
    ⟨map, hmap, hptr, hcap, hcount, hlen⟩
  refine ⟨m, map, hm, hmap, hview, hcap, hcount, fun n => ⟨?_, ?_⟩⟩
  · show map.buckets.length = map.capacity
    rw [hlen, hcap, h.length]
  · show Forest (m.view entryView) (bucketPtr map) _
    rw [hview, hptr]
    refine h.forest.replace i ((h.forest.chain i).cons_update (hfresh i)) ?_ ?_
    · intro j _ b hb
      refine Function.update_of_ne ?_ _ _
      rintro rfl
      exact hfresh j hb
    · intro b hb j hj
      rcases List.mem_cons.mp hb with rfl | hb
      · exact hfresh j
      · exact h.forest.disjoint i j (Ne.symm hj) b hb

/-- Entries that are in no new chain and are not among those being placed stay outside. -/
lemma not_mem_foldl_place {capacity : ℕ} {new : ℕ → List Item} (xs ys : List Item)
    (hdis : ∀ a ∈ addrs ys, ∀ j, a ∉ addrs (new j)) (hxy : ∀ a ∈ addrs ys, a ∉ addrs xs) :
    ∀ a ∈ addrs ys, ∀ j, a ∉ addrs (xs.foldl (place capacity) new j) := by
  intro a ha j
  rw [foldl_place]
  simp only [addrs, List.map_append, List.map_reverse, List.mem_append, List.mem_reverse, not_or]
  refine ⟨fun hmem => hxy a ha ?_, hdis a ha j⟩
  rcases List.mem_map.mp hmem with ⟨y, hy, rfl⟩
  exact List.mem_map_of_mem (List.mem_of_mem_filter hy)

/-- Chains stay what they are when no entry of theirs is written. -/
lemma chains_congr {view view' : ℕ → Option ((CStr × ℤ) × Ptr)} {roots : List Ptr}
    {ts : List (List Item)} (h : List.Forall₂ (fun p xs => Chain view p xs none) roots ts)
    (hsame : ∀ b ∈ addrs ts.flatten, view' b = view b) :
    List.Forall₂ (fun p xs => Chain view' p xs none) roots ts := by
  induction h with
  | nil => exact .nil
  | cons hcur _ ih =>
      simp only [addrs, List.flatten_cons, List.map_append, List.mem_append] at hsame
      exact .cons (hcur.congr fun b hb => hsame b (Or.inl hb)) (ih fun b hb => hsame b (Or.inr hb))

/-- **One turn of the loop** of `rehash`: the entry it stands on goes in front of its new chain, and
nothing else in the heap is written. -/
lemma rehashChain_step {s : State} {new : ℕ → List Item} {x : Item} {next : Ptr} (fuel : ℕ)
    (hs : Holds s new) (hcap : 0 < s.map.capacity)
    (hx : s.mem.view entryView x.1 = some (x.2, next)) (hfresh : ∀ j, x.1 ∉ addrs (new j))
    (hmax : s.map.count < INT_MAX) :
    ∃ s₁, rehashChain (fuel + 1) s (some x.1) = rehashChain fuel s₁ next
      ∧ Holds s₁ (place s.map.capacity new x)
      ∧ s₁.map.capacity = s.map.capacity ∧ s₁.map.count = s.map.count + 1
      ∧ ∀ b, b ≠ x.1 → s₁.mem.view entryView b = s.mem.view entryView b := by
  have hlt := bucketIndex_lt x.2.1 hcap
  rcases hs.hangFront hlt hx (fun _ => rfl) hfresh with
    ⟨m, map, hm, hmap, hview, hcap', hcount, hholds⟩
  have hsucc : intSucc map.count = .ok (map.count + 1) := intSucc_eq (by rw [hcount]; exact hmax)
  refine ⟨⟨m, { map with count := map.count + 1 }⟩, ?_, hholds _, hcap', by rw [← hcount], ?_⟩
  · simp [rehashChain, load_eq hx, hs.loadBucket hlt, hm, hmap, hsucc]
  · intro b hb
    show m.view entryView b = _
    rw [hview, Function.update_of_ne hb]

/-- **One old chain.**  Its entries go over, one by one, in front of their new chains; nothing
else in the heap is written. -/
lemma rehashChain_eq : ∀ (fuel : ℕ) (s : State) (cur : Ptr) (xs : List Item)
    (new : ℕ → List Item), Holds s new → 0 < s.map.capacity →
      Chain (s.mem.view entryView) cur xs none →
      (∀ a ∈ addrs xs, ∀ j, a ∉ addrs (new j)) → s.map.count + xs.length ≤ INT_MAX →
      xs.length < fuel →
      ∃ s', rehashChain fuel s cur = .ok s'
        ∧ Holds s' (xs.foldl (place s.map.capacity) new)
        ∧ s'.map.capacity = s.map.capacity ∧ s'.map.count = s.map.count + xs.length
        ∧ ∀ b, b ∉ addrs xs → s'.mem.view entryView b = s.mem.view entryView b
  | 0, _, _, _, _, _, _, _, _, _, hf => absurd hf (by omega)
  | fuel + 1, s, cur, [], new, hs, _, hcur, _, _, _ => by
      have hnone : cur = none := hcur
      exact ⟨s, by simp [rehashChain, hnone], hs, rfl, by simp, fun _ _ => rfl⟩
  | fuel + 1, s, cur, x :: xs, new, hs, hcap, hcur, hdis, hmax, hf => by
      have hnd := hcur.nodup
      rcases hcur with ⟨rfl, next, hx, hrest⟩
      rw [List.length_cons] at hmax hf
      push_cast at hmax
      have hother : ∀ a ∈ addrs xs, a ≠ x.1 := by
        rintro a ha rfl
        exact (List.nodup_cons.mp hnd).1 ha
      rcases rehashChain_step fuel hs hcap hx (hdis x.1 List.mem_cons_self) (by omega) with
        ⟨s₁, hstep, hholds, hcap₁, hcount₁, hframe₁⟩
      have hrest₁ : Chain (s₁.mem.view entryView) next xs none :=
        hrest.congr fun a ha => hframe₁ a (hother a ha)
      have hdis₁ : ∀ a ∈ addrs xs, ∀ j, a ∉ addrs (place s.map.capacity new x j) :=
        not_mem_foldl_place [x] xs (fun a ha => hdis a (List.mem_cons_of_mem _ ha))
          fun a ha hax => hother a ha (List.mem_singleton.mp hax)
      rcases rehashChain_eq fuel s₁ next xs _ hholds (by rw [hcap₁]; exact hcap) hrest₁ hdis₁
        (by rw [hcount₁]; omega) (by omega) with ⟨s', hrun, hholds', hcap', hcount', hframe⟩
      rw [hcap₁] at hholds' hcap'
      refine ⟨s', hstep.trans hrun, hholds', hcap', ?_, ?_⟩
      · rw [hcount', hcount₁, List.length_cons]
        push_cast
        ring
      · intro b hb
        simp only [addrs, List.map_cons, List.mem_cons, not_or] at hb
        rw [hframe b hb.2, hframe₁ b hb.1]

/-- **All old chains.**  The frame clause of `rehashChain_eq` keeps the ones not yet reached. -/
lemma rehashAll_eq : ∀ (roots : List Ptr) (ts : List (List Item)) (s : State)
    (new : ℕ → List Item), Holds s new → 0 < s.map.capacity →
      List.Forall₂ (fun p xs => Chain (s.mem.view entryView) p xs none) roots ts →
      (addrs ts.flatten).Nodup → (∀ a ∈ addrs ts.flatten, ∀ j, a ∉ addrs (new j)) →
      s.map.count + ts.flatten.length ≤ INT_MAX →
      ∃ s', roots.foldlM (fun s cur => rehashChain (s.mem.brk + 1) s cur) s = .ok s'
        ∧ Holds s' (ts.flatten.foldl (place s.map.capacity) new)
        ∧ s'.map.capacity = s.map.capacity
        ∧ s'.map.count = s.map.count + ts.flatten.length := by
  intro roots
  induction roots with
  | nil =>
      intro ts s new hs _ hroots _ _ _
      cases hroots
      exact ⟨s, rfl, hs, rfl, by simp⟩
  | cons cur roots ih =>
      intro ts s new hs hcap hroots hnd hdis hmax
      cases hroots with
      | @cons _ xs _ ts hcur hroots =>
          rw [List.flatten_cons] at hnd hdis hmax
          simp only [addrs, List.map_append] at hnd hdis
          rw [List.nodup_append] at hnd
          rw [List.length_append] at hmax
          push_cast at hmax
          rcases rehashChain_eq (s.mem.brk + 1) s cur xs new hs hcap hcur
            (fun a ha => hdis a (List.mem_append_left _ ha)) (by omega)
            (Nat.lt_succ_of_le hcur.length_le_brk) with ⟨s₁, hrun, hholds, hc, hn, hframe⟩
          have hother : ∀ a ∈ addrs ts.flatten, a ∉ addrs xs :=
            fun a ha hax => hnd.2.2 a hax a ha rfl
          have hroots₁ := chains_congr hroots fun b hb => hframe b (hother b hb)
          rcases ih ts s₁ _ hholds (by rw [hc]; exact hcap) hroots₁ hnd.2.1
            (not_mem_foldl_place xs ts.flatten
              (fun a ha => hdis a (List.mem_append_right _ ha)) hother) (by omega) with
            ⟨s', hrun', hholds', hc', hn'⟩
          refine ⟨s', ?_, ?_, by rw [hc', hc], ?_⟩
          · rw [List.foldlM_cons, hrun]
            exact hrun'
          · rw [List.flatten_cons, List.foldl_append]
            rw [hc] at hholds'
            exact hholds'
          · rw [hn', hn, List.flatten_cons, List.length_append]
            push_cast
            ring

lemma buckets_eq_map (map : HashMap) :
    map.buckets = (List.range map.buckets.length).map (bucketPtr map) := by
  refine List.ext_getElem (by simp) fun i h _ => ?_
  simp [bucketPtr, List.getElem?_eq_getElem h]

lemma Forest.entries_nodup {view : ℕ → Option ((CStr × ℤ) × Ptr)} {roots : ℕ → Ptr}
    {chains : ℕ → List Item} (h : Forest view roots chains) (n : ℕ) :
    (addrs (entries chains n)).Nodup := by
  simp only [addrs, entries, List.map_flatMap]
  refine List.nodup_flatMap.mpr ⟨fun i _ => (h.chain i).nodup, ?_⟩
  refine List.pairwise_lt_range.imp fun {i j} hij => ?_
  intro a hi hj
  exact h.disjoint i j (Nat.ne_of_lt hij) a hi hj

/-- **What `rehash` does.**  The new chain of bucket `j` consists of the entries of the old table
whose key belongs into `j`, in reverse, and `count` is recomputed. -/
theorem rehash_eq {s : State} {chains : ℕ → List Item} (hs : Holds s chains)
    (hcap : 0 < s.map.capacity) (hmax : s.map.capacity * 2 ≤ intMax)
    (hsize : ((entries chains s.map.capacity).length : ℤ) ≤ INT_MAX) :
    ∃ s', rehash s = .ok s'
      ∧ Holds s' (fun j => ((entries chains s.map.capacity).filter
          fun x => bucketIndex x.2.1 (s.map.capacity * 2) = j).reverse)
      ∧ s'.map.capacity = s.map.capacity * 2
      ∧ s'.map.count = (entries chains s.map.capacity).length := by
  set c := s.map.capacity with hc
  set s₀ : State := ⟨s.mem, ⟨List.replicate (c * 2) none, c * 2, 0⟩⟩ with hs₀
  have hempty : Holds s₀ (fun _ => []) := holds_fresh s.mem (c * 2)
  have hroots : List.Forall₂ (fun p xs => Chain (s₀.mem.view entryView) p xs none)
      s.map.buckets ((List.range c).map chains) := by
    rw [buckets_eq_map s.map, hs.length, ← hc, List.forall₂_map_left_iff,
      List.forall₂_map_right_iff, List.forall₂_same]
    intro i _
    exact hs.forest.chain i
  have hnd : (addrs ((List.range c).map chains).flatten).Nodup := by
    have h := Forest.entries_nodup hs.forest c
    rwa [entries, List.flatMap_def] at h
  have hflat : ((List.range c).map chains).flatten = entries chains c := by
    rw [entries, List.flatMap_def]
  rcases rehashAll_eq s.map.buckets _ s₀ _ hempty (by simp [hs₀]; omega) hroots hnd
    (by simp) (by rw [hflat]; simpa [hs₀] using hsize) with ⟨s', hrun, hholds, hcap', hcount⟩
  rw [hflat] at hholds hcount
  refine ⟨s', ?_, ?_, hcap', by rw [hcount]; simp [hs₀]⟩
  · have hle : ¬ intMax < s.map.capacity * 2 := by omega
    simp only [rehash, hle, if_false]
    exact hrun
  · refine ⟨hholds.length, ?_⟩
    have hfun : (entries chains c).foldl (place s₀.map.capacity) (fun _ => [])
        = fun j => ((entries chains c).filter
            fun x => bucketIndex x.2.1 (c * 2) = j).reverse := by
      funext j
      rw [foldl_place]
      simp [hs₀]
    rw [← hfun]
    exact hholds.forest

/-! ## The other changes to a chain -/

section

variable {M : Malloc Entry} {s : State} {chains : ℕ → List Item} {i : ℕ}

/-- A write to a node of chain `i` is not seen from the other chains. -/
lemma Holds.update_frame (h : Holds s chains) {a b : ℕ} {o : Option ((CStr × ℤ) × Ptr)}
    {view : ℕ → Option ((CStr × ℤ) × Ptr)} (ha : a ∈ addrs (chains i)) {j : ℕ} (hj : j ≠ i)
    (hb : b ∈ addrs (chains j)) : Function.update view a o b = view b := by
  refine Function.update_of_ne ?_ _ _
  rintro rfl
  exact h.forest.disjoint j i hj b hb ha

lemma Holds.prepend (h : Holds s chains) (hi : i < s.map.capacity)
    (hmax : s.map.count < INT_MAX) (key : CStr) (value : ℤ) :
    ∃ s', prependEntry M s i key value = .ok s'
      ∧ Holds s' (Function.update chains i ((M.place s.mem, (key, value)) :: chains i))
      ∧ s'.map.capacity = s.map.capacity ∧ s'.map.count = s.map.count + 1 := by
  have hnone : s.mem.view entryView (M.place s.mem) = none := M.view_place
  have hfresh : ∀ j, M.place s.mem ∉ addrs (chains j) := fun j =>
    (h.forest.chain j).not_mem_of_eq_none hnone
  have hview₁ : (entryCreate M s.mem key value).2.view entryView
      = Function.update (s.mem.view entryView) (M.place s.mem) (some ((key, value), none)) := by
    simp [entryCreate, entryView]
  have hnew : (entryCreate M s.mem key value).2.view entryView (M.place s.mem)
      = some ((key, value), none) := by
    rw [hview₁, Function.update_self]
  rcases h.hangFront hi hnew (fun o => by rw [hview₁, Function.update_idem]) hfresh with
    ⟨m, map, hm, hmap, _, hcap, hcount, hholds⟩
  refine ⟨⟨m, { map with count := map.count + 1 }⟩, ?_, hholds _, hcap, by simp [hcount]⟩
  have hplace : (entryCreate M s.mem key value).1 = M.place s.mem := rfl
  have hsucc : intSucc map.count = .ok (map.count + 1) := intSucc_eq (by rw [hcount]; exact hmax)
  simp [prependEntry, hplace, h.loadBucket hi, hm, hmap, hsucc]

/-- Overwriting the value of an entry in place. -/
lemma Holds.setValue (h : Holds s chains) {ys zs : List Item} {x : Item}
    (hsplit : chains i = ys ++ x :: zs) (value : ℤ) :
    ∃ e m, s.mem.load (some x.1) = .ok e ∧ s.mem.store (some x.1) { e with value := value } = .ok m
      ∧ Holds ⟨m, s.map⟩ (Function.update chains i (ys ++ (x.1, (x.2.1, value)) :: zs)) := by
  have hchain := h.forest.chain i
  rw [hsplit] at hchain
  rcases hchain.set_payload (u := (x.2.1, value)) with ⟨r, hx, hchain'⟩
  rcases Memory.store_of_view hx ⟨x.2.1, value, r⟩ with ⟨m, hm, hview, _⟩
  refine ⟨_, m, load_eq hx, hm, h.length, ?_⟩
  show Forest (m.view entryView) (bucketPtr s.map) _
  have hself : bucketPtr s.map = Function.update (bucketPtr s.map) i (bucketPtr s.map i) := by simp
  have hmem : x.1 ∈ addrs (chains i) := by simp [hsplit]
  rw [hview, hself]
  refine h.forest.replace i hchain' ?_ ?_
  · intro j hj a ha
    exact h.update_frame hmem hj ha
  · intro a ha j hj
    refine h.forest.disjoint i j (Ne.symm hj) a ?_
    rw [hsplit]
    simpa using ha

/-- Cutting an entry out from behind another one. -/
lemma Holds.unlinkMid (h : Holds s chains) {ys zs : List Item} {y x : Item}
    (hsplit : chains i = ys ++ y :: x :: zs) (count : ℤ) :
    ∃ e m m', s.mem.load (some x.1) = .ok e ∧ storeNext s.mem (some y.1) e.next = .ok m
      ∧ m.free (some x.1) = .ok m'
      ∧ Holds ⟨m', { s.map with count := count }⟩ (Function.update chains i (ys ++ y :: zs)) := by
  have hchain := h.forest.chain i
  rw [hsplit] at hchain
  rcases hchain.unlink_after with ⟨r, hy, hx, hne, hchain'⟩
  rcases storeNext_eq hy r with ⟨m, hm, hview, _⟩
  have hx' : m.view entryView x.1 = some (x.2, r) := by
    rw [hview, Function.update_of_ne (Ne.symm hne), hx]
  rcases Memory.free_of_view hx' with ⟨m', hm', hview'⟩
  refine ⟨_, m, m', load_eq hx, hm, hm', h.length, ?_⟩
  show Forest (m'.view entryView) (bucketPtr s.map) _
  have hself : bucketPtr s.map = Function.update (bucketPtr s.map) i (bucketPtr s.map i) := by simp
  have hymem : y.1 ∈ addrs (chains i) := by simp [hsplit]
  have hxmem : x.1 ∈ addrs (chains i) := by simp [hsplit]
  rw [hview', hview, hself]
  refine h.forest.replace i hchain' ?_ ?_
  · intro j hj a ha
    rw [h.update_frame hxmem hj ha, h.update_frame hymem hj ha]
  · intro a ha j hj
    refine h.forest.disjoint i j (Ne.symm hj) a ?_
    rw [hsplit]
    simp only [addrs, List.map_append, List.map_cons, List.mem_append, List.mem_cons] at ha ⊢
    tauto

/-- Cutting the first entry out of its bucket. -/
lemma Holds.unlinkFirst (h : Holds s chains) (hi : i < s.map.capacity) {zs : List Item} {x : Item}
    (hsplit : chains i = x :: zs) :
    ∃ e map m, s.mem.load (some x.1) = .ok e ∧ storeBucket s.map i e.next = .ok map
      ∧ s.mem.free (some x.1) = .ok m ∧ map.capacity = s.map.capacity ∧ map.count = s.map.count
      ∧ ∀ count, Holds ⟨m, { map with count := count }⟩ (Function.update chains i zs) := by
  have hchain := h.forest.chain i
  rw [hsplit] at hchain
  rcases hchain.unlink_first with ⟨r, _, hx, hchain'⟩
  rcases storeBucket_eq (by rw [h.length]; exact hi) r with ⟨map, hmap, hptr, hcap, hcount, hlen⟩
  rcases Memory.free_of_view hx with ⟨m, hm, hview⟩
  refine ⟨_, map, m, load_eq hx, hmap, hm, hcap, hcount, fun count => ⟨?_, ?_⟩⟩
  · show map.buckets.length = map.capacity
    rw [hlen, hcap, h.length]
  · show Forest (m.view entryView) (bucketPtr map) _
    have hxmem : x.1 ∈ addrs (chains i) := by simp [hsplit]
    rw [hview, hptr]
    refine h.forest.replace i hchain' ?_ ?_
    · intro j hj a ha
      exact h.update_frame hxmem hj ha
    · intro a ha j hj
      refine h.forest.disjoint i j (Ne.symm hj) a ?_
      rw [hsplit]
      exact List.mem_cons_of_mem _ ha

end

end CExercises.HashTable
