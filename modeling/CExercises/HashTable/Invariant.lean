import CExercises.HashTable.Chains
import Mathlib.Algebra.BigOperators.Group.Finset.Piecewise
import Mathlib.Tactic.NormNum

/-!
# The representation invariant

`Inv s chains` is what every reachable map satisfies: each entry hangs in the bucket its hash
selects, no bucket holds a key twice, `count` is the number of entries, the capacity is `8` times
a power of two that fits an `int`, and the load factor is at most `3/4`.

Uniqueness of keys across the whole table is not in the list: two entries with the same key have
the same hash, so they would sit in the same bucket (`Inv.keys_nodup`).  This is where placement
matters, and why `rehash`, which changes every bucket index at once, has to come before the new
bucket is computed.

The capacity being a power of two is also what makes the `double` comparison of `hmap_put` an
exact comparison of integers (`overLoaded_iff`).
-/

namespace CExercises.HashTable

/-- An entry for `key` with value `v` hangs somewhere in the table. -/
def Has (chains : ℕ → List Item) (key : CStr) (v : ℤ) : Prop := ∃ i a, (a, (key, v)) ∈ chains i

structure Inv (s : State) (chains : ℕ → List Item) : Prop where
  holds : Holds s chains
  placed : ∀ i, ∀ x ∈ chains i, bucketIndex x.2.1 s.map.capacity = i
  keys : ∀ i, ((chains i).map fun x => x.2.1).Nodup
  count : s.map.count = (entries chains s.map.capacity).length
  shape : ∃ k, s.map.capacity = 8 * 2 ^ k
  fits : s.map.capacity ≤ intMax
  load : 4 * s.map.count ≤ 3 * s.map.capacity

/-! ## Counting entries -/

lemma mem_entries {chains : ℕ → List Item} {n : ℕ} {x : Item} :
    x ∈ entries chains n ↔ ∃ i, i < n ∧ x ∈ chains i := by
  simp [entries, List.mem_flatMap]

lemma length_entries (chains : ℕ → List Item) (n : ℕ) :
    (entries chains n).length = ∑ i ∈ Finset.range n, (chains i).length := by
  induction n with
  | zero => rfl
  | succ n ih =>
      rw [entries, List.range_succ, List.flatMap_append, List.length_append,
        Finset.sum_range_succ, ← ih]
      simp [entries]

/-- Replacing one chain changes the number of entries by the difference of its lengths. -/
lemma length_entries_update (chains : ℕ → List Item) {n i : ℕ} (hi : i < n) (xs : List Item) :
    (entries (Function.update chains i xs) n).length + (chains i).length
      = (entries chains n).length + xs.length := by
  have hmem : i ∈ Finset.range n := Finset.mem_range.mpr hi
  have hfun : (fun j => (Function.update chains i xs j).length)
      = Function.update (fun j => (chains j).length) i xs.length := by
    funext j
    simp only [Function.update_apply]
    split <;> rfl
  rw [length_entries, length_entries, hfun, Finset.sum_update_of_mem hmem]
  rw [Finset.sum_eq_add_sum_sdiff_singleton_of_mem hmem (fun j => (chains j).length)]
  omega

/-- Sorting a list of entries into `n` buckets loses only those that belong into a later one. -/
lemma entries_filter_perm (L : List Item) (f : Item → ℕ) (n : ℕ) :
    (entries (fun j => (L.filter fun x => f x = j).reverse) n).Perm
      (L.filter fun x => f x < n) := by
  induction n with
  | zero => simp [entries]
  | succ n ih =>
      have hlow : (L.filter fun x => f x < n + 1).filter (fun x => f x < n)
          = L.filter fun x => f x < n := by
        rw [List.filter_filter]
        refine List.filter_congr fun x _ => ?_
        simp only [Bool.and_eq_left_iff_imp, decide_eq_true_eq]
        omega
      have hlast : (L.filter fun x => f x < n + 1).filter (fun x => !decide (f x < n))
          = L.filter fun x => f x = n := by
        rw [List.filter_filter]
        refine List.filter_congr fun x _ => ?_
        rw [← decide_not, ← Bool.decide_and, decide_eq_decide]
        omega
      have hsplit := List.filter_append_perm (fun x => decide (f x < n))
        (L.filter fun x => f x < n + 1)
      rw [hlow, hlast] at hsplit
      rw [entries, List.range_succ, List.flatMap_append, List.flatMap_singleton]
      exact (ih.append (List.reverse_perm _)).trans hsplit

/-- When no entry belongs later, none is lost. -/
lemma entries_filter_perm_self {L : List Item} {f : Item → ℕ} {n : ℕ} (hf : ∀ x ∈ L, f x < n) :
    (entries (fun j => (L.filter fun x => f x = j).reverse) n).Perm L := by
  have hall : (L.filter fun x => f x < n) = L := List.filter_eq_self.mpr (by simpa using hf)
  have hperm := entries_filter_perm L f n
  rwa [hall] at hperm

section

variable {M : Malloc Entry} {s : State} {chains : ℕ → List Item}

lemma Inv.capacity_ge (h : Inv s chains) : 8 ≤ s.map.capacity := by
  rcases h.shape with ⟨k, hk⟩
  have hpos := Nat.two_pow_pos k
  omega

lemma Inv.capacity_pos (h : Inv s chains) : 0 < s.map.capacity := by
  have hge := h.capacity_ge
  omega

/-- An entry for a key is found in the key's own bucket or not at all. -/
lemma Inv.has_iff (h : Inv s chains) {key : CStr} {v : ℤ} :
    Has chains key v ↔ ∃ a, (a, (key, v)) ∈ chains (bucketIndex key s.map.capacity) := by
  constructor
  · rintro ⟨i, a, hmem⟩
    have hi := h.placed i _ hmem
    exact ⟨a, by rw [hi]; exact hmem⟩
  · rintro ⟨a, hmem⟩
    exact ⟨_, a, hmem⟩

lemma Inv.mem_entries_iff (h : Inv s chains) {x : Item} :
    x ∈ entries chains s.map.capacity ↔ ∃ i, x ∈ chains i := by
  rw [mem_entries]
  constructor
  · rintro ⟨i, _, hx⟩
    exact ⟨i, hx⟩
  · rintro ⟨i, hx⟩
    refine ⟨i, ?_, hx⟩
    rw [← h.placed i x hx]
    exact bucketIndex_lt _ h.capacity_pos

/-- **No two entries anywhere in the table have equal keys.** -/
lemma Inv.keys_nodup (h : Inv s chains) :
    ((entries chains s.map.capacity).map fun x => x.2.1).Nodup := by
  simp only [entries, List.map_flatMap]
  refine List.nodup_flatMap.mpr ⟨fun i _ => h.keys i, ?_⟩
  refine List.pairwise_lt_range.imp fun {i j} hij => ?_
  intro key hi hj
  rcases List.mem_map.mp hi with ⟨x, hx, rfl⟩
  rcases List.mem_map.mp hj with ⟨y, hy, hxy⟩
  have hxi := h.placed i x hx
  have hyj := h.placed j y hy
  rw [hxy] at hyj
  omega

lemma Inv.has_unique (h : Inv s chains) {key : CStr} {v w : ℤ} (hv : Has chains key v)
    (hw : Has chains key w) : v = w := by
  rcases h.has_iff.mp hv with ⟨a, ha⟩
  rcases h.has_iff.mp hw with ⟨b, hb⟩
  have hinj := List.inj_on_of_nodup_map (h.keys _) ha hb rfl
  exact congrArg (fun x : Item => x.2.2) hinj

/-- `count++` never overflows. -/
lemma Inv.count_lt (h : Inv s chains) : s.map.count < INT_MAX := by
  have hfits := h.fits
  have hload := h.load
  unfold intMax at hfits
  unfold INT_MAX
  omega

/-- Nor does `count--`. -/
lemma Inv.count_gt (h : Inv s chains) : INT_MIN < s.map.count := by
  rw [h.count]
  unfold INT_MIN
  omega

/-- **The load test is exact.**  The quotient of `count + 1` by a power of two is a `double`. -/
lemma Inv.overLoaded_iff (h : Inv s chains) :
    overLoaded s.map = true ↔ 3 * (s.map.capacity : ℤ) < 4 * (s.map.count + 1) := by
  rcases h.shape with ⟨k, hk⟩
  have hload := h.load
  set n := (entries chains s.map.capacity).length with hn
  have hcount : s.map.count = n := h.count
  have hcapq : (s.map.capacity : ℚ) = 2 ^ (k + 3) := by
    rw [hk]
    push_cast
    ring
  have hfits := h.fits
  have hexact := roundDouble_dyadic (n + 1) (k + 3) (by unfold intMax at hfits; omega)
  have hpos : (0 : ℚ) < 2 ^ (k + 3) := by positivity
  have hcast : ((s.map.count + 1 : ℤ) : ℚ) = ((n + 1 : ℕ) : ℚ) := by
    rw [hcount]
    push_cast
    rfl
  rw [overLoaded, decide_eq_true_iff, loadMax, hcast, hcapq, hexact, lt_div_iff₀ hpos, ← hcapq,
    hcount]
  constructor
  · intro hlt
    have : (3 * (s.map.capacity : ℚ)) < 4 * ((n + 1 : ℕ) : ℚ) := by linarith
    exact_mod_cast this
  · intro hlt
    have : (3 * (s.map.capacity : ℚ)) < 4 * ((n + 1 : ℕ) : ℚ) := by exact_mod_cast hlt
    linarith

/-! ## Each function keeps the invariant -/

lemma inv_create : Inv hmapCreate (fun _ => []) where
  holds := holds_fresh Memory.empty initialCapacity
  placed := by simp
  keys := by simp
  count := by simp [hmapCreate, entries]
  shape := ⟨0, rfl⟩
  fits := by decide
  load := by simp [hmapCreate]

/-- The same entries in other buckets. -/
lemma has_congr {chains' : ℕ → List Item} (h : ∀ x, (∃ i, x ∈ chains' i) ↔ ∃ i, x ∈ chains i)
    (k : CStr) (v : ℤ) : Has chains' k v ↔ Has chains k v := by
  constructor
  · rintro ⟨i, a, hmem⟩
    rcases (h (a, (k, v))).mp ⟨i, hmem⟩ with ⟨j, hj⟩
    exact ⟨j, a, hj⟩
  · rintro ⟨i, a, hmem⟩
    rcases (h (a, (k, v))).mpr ⟨i, hmem⟩ with ⟨j, hj⟩
    exact ⟨j, a, hj⟩

/-- `rehash` doubles the capacity and keeps every entry. -/
lemma Inv.rehash (h : Inv s chains) (hgrow : s.map.capacity * 2 ≤ intMax) :
    ∃ s' chains', rehash s = .ok s' ∧ Inv s' chains' ∧ s'.map.capacity = s.map.capacity * 2
      ∧ s'.map.count = s.map.count ∧ ∀ x, (∃ i, x ∈ chains' i) ↔ ∃ i, x ∈ chains i := by
  have hpos := h.capacity_pos
  have hsize := h.count_lt
  rw [h.count] at hsize
  rcases rehash_eq h.holds hpos hgrow (le_of_lt hsize) with ⟨s', hrun, hholds, hcap', hcount⟩
  have hlt : ∀ x ∈ entries chains s.map.capacity,
      bucketIndex x.2.1 (s.map.capacity * 2) < s.map.capacity * 2 :=
    fun x _ => bucketIndex_lt _ (by omega)
  have hload := h.load
  refine ⟨s', _, hrun, ⟨hholds, ?_, ?_, ?_, ?_, by rw [hcap']; exact hgrow, ?_⟩, hcap',
    by rw [hcount, h.count], ?_⟩
  · intro i x hx
    rw [List.mem_reverse, List.mem_filter] at hx
    rw [hcap']
    simpa using hx.2
  · intro i
    rw [List.map_reverse, List.nodup_reverse]
    exact h.keys_nodup.sublist (List.filter_sublist.map _)
  · rw [hcount, hcap', (entries_filter_perm_self hlt).length_eq]
  · rcases h.shape with ⟨k, hk⟩
    exact ⟨k + 1, by rw [hcap', hk]; ring⟩
  · rw [hcap', hcount, ← h.count]
    push_cast
    omega
  · intro x
    rw [← h.mem_entries_iff]
    simp only [List.mem_reverse, List.mem_filter, decide_eq_true_eq]
    constructor
    · rintro ⟨_, hx, _⟩
      exact hx
    · intro hx
      exact ⟨_, hx, rfl⟩

/-- After the doubling there is room for one entry more, and every key has the value it had. -/
lemma Inv.grow (h : Inv s chains) (hgrow : s.map.capacity * 2 ≤ intMax) :
    ∃ s' chains', HashTable.rehash s = .ok s' ∧ Inv s' chains'
      ∧ s'.map.capacity = s.map.capacity * 2 ∧ s'.map.count = s.map.count
      ∧ 4 * (s'.map.count + 1) ≤ 3 * (s'.map.capacity : ℤ)
      ∧ ∀ k v, Has chains' k v ↔ Has chains k v := by
  rcases h.rehash hgrow with ⟨s', chains', hrun, hinv', hcap, hcount, hsame⟩
  have hge := h.capacity_ge
  have hload := h.load
  refine ⟨s', chains', hrun, hinv', hcap, hcount, ?_, has_congr hsame⟩
  rw [hcap, hcount]
  push_cast
  omega

/-- Work on a single bucket keeps the invariant if what it leaves there belongs there and `count`
follows the length of the chain. -/
lemma Inv.replace (h : Inv s chains) {s' : State} {i : ℕ} {xs : List Item}
    (hi : i < s.map.capacity) (hholds : Holds s' (Function.update chains i xs))
    (hcap : s'.map.capacity = s.map.capacity)
    (hplaced : ∀ x ∈ xs, bucketIndex x.2.1 s.map.capacity = i)
    (hkeys : (xs.map fun x => x.2.1).Nodup)
    (hcount : s'.map.count + (chains i).length = s.map.count + xs.length)
    (hload : 4 * s'.map.count ≤ 3 * s.map.capacity) : Inv s' (Function.update chains i xs) where
  holds := hholds
  placed := by
    intro j x hx
    rw [hcap]
    by_cases hj : j = i
    · subst hj
      rw [Function.update_self] at hx
      exact hplaced x hx
    · rw [Function.update_of_ne hj] at hx
      exact h.placed j x hx
  keys := by
    intro j
    by_cases hj : j = i
    · subst hj
      rw [Function.update_self]
      exact hkeys
    · rw [Function.update_of_ne hj]
      exact h.keys j
  count := by
    have hlen := length_entries_update chains hi xs
    rw [h.count] at hcount
    rw [hcap]
    omega
  shape := by
    rw [hcap]
    exact h.shape
  fits := by
    rw [hcap]
    exact h.fits
  load := by
    rw [hcap]
    exact hload

/-- What a key means after work on bucket `i`: look there if the key belongs there, and at the old
table otherwise. -/
lemma Inv.has_replace (h : Inv s chains) {i : ℕ} {xs : List Item}
    (hplaced : ∀ x ∈ xs, bucketIndex x.2.1 s.map.capacity = i) {k : CStr} {v : ℤ} :
    Has (Function.update chains i xs) k v
      ↔ if bucketIndex k s.map.capacity = i then ∃ a, (a, (k, v)) ∈ xs else Has chains k v := by
  constructor
  · rintro ⟨j, a, hmem⟩
    by_cases hj : j = i
    · subst hj
      rw [Function.update_self] at hmem
      rw [if_pos (hplaced _ hmem)]
      exact ⟨a, hmem⟩
    · rw [Function.update_of_ne hj] at hmem
      have hk := h.placed j _ hmem
      rw [if_neg (fun he => hj (by rw [← hk, ← he]))]
      exact ⟨j, a, hmem⟩
  · intro hif
    split_ifs at hif with hk
    · rcases hif with ⟨a, hmem⟩
      exact ⟨i, a, by rw [Function.update_self]; exact hmem⟩
    · rcases hif with ⟨j, a, hmem⟩
      have hj := h.placed j _ hmem
      refine ⟨j, a, ?_⟩
      rw [Function.update_of_ne (fun he => hk (by rw [← he, ← hj]))]
      exact hmem

/-- A new entry for a key the table does not have. -/
lemma Inv.prepend (h : Inv s chains) {key : CStr} (value : ℤ) (hkey : ∀ v, ¬ Has chains key v)
    (hroom : 4 * (s.map.count + 1) ≤ 3 * s.map.capacity) :
    ∃ s' chains', prependEntry M s (bucketIndex key s.map.capacity) key value = .ok s'
      ∧ Inv s' chains' ∧ s'.map.capacity = s.map.capacity ∧ s'.map.count = s.map.count + 1
      ∧ ∀ k v, Has chains' k v ↔ if k = key then v = value else Has chains k v := by
  set idx := bucketIndex key s.map.capacity with hidx
  have hlt : idx < s.map.capacity := bucketIndex_lt _ h.capacity_pos
  rcases h.holds.prepend (M := M) hlt h.count_lt key value with ⟨s', hrun, hholds, hcap, hcount⟩
  have hplaced : ∀ x ∈ (M.place s.mem, (key, value)) :: chains idx,
      bucketIndex x.2.1 s.map.capacity = idx := by
    intro x hx
    rcases List.mem_cons.mp hx with rfl | hx
    · rfl
    · exact h.placed _ x hx
  have hkeys : (((M.place s.mem, (key, value)) :: chains idx).map fun x => x.2.1).Nodup := by
    rw [List.map_cons, List.nodup_cons]
    refine ⟨fun hmem => ?_, h.keys _⟩
    rcases List.mem_map.mp hmem with ⟨x, hx, hxk⟩
    have hxk' : x.2.1 = key := hxk
    exact hkey x.2.2 ⟨idx, x.1, by rw [← hxk']; exact hx⟩
  have hinv := h.replace hlt hholds hcap hplaced hkeys
    (by rw [hcount, List.length_cons]; push_cast; ring) (by rw [hcount]; exact hroom)
  refine ⟨s', _, hrun, hinv, hcap, hcount, ?_⟩
  intro k v
  rw [h.has_replace hplaced]
  by_cases hk : k = key
  · subst hk
    have hnone : ∀ a, (a, (k, v)) ∉ chains idx := fun a ha => hkey v ⟨idx, a, ha⟩
    simp [← hidx, hnone]
  · rw [if_neg hk]
    split_ifs with hb
    · rw [h.has_iff, hb]
      simp [hk]
    · rfl

/-- The key of an entry does not come a second time in its bucket. -/
lemma Inv.key_once (h : Inv s chains) {i : ℕ} {ys zs : List Item} {x y : Item}
    (hsplit : chains i = ys ++ x :: zs) (hy : y ∈ ys ++ zs) : y.2.1 ≠ x.2.1 := by
  have hkeys := h.keys i
  rw [hsplit, (List.perm_middle.map _).nodup_iff, List.map_cons, List.nodup_cons] at hkeys
  intro heq
  exact hkeys.1 (List.mem_map.mpr ⟨y, hy, heq⟩)

/-- A new value for a key the table has. -/
lemma Inv.setValue (h : Inv s chains) {key : CStr} {ys zs : List Item} {x : Item} (hx : x.2.1 = key)
    (hsplit : chains (bucketIndex key s.map.capacity) = ys ++ x :: zs) (value : ℤ) :
    ∃ e m chains', s.mem.load (some x.1) = .ok e
      ∧ s.mem.store (some x.1) { e with value := value } = .ok m
      ∧ Inv ⟨m, s.map⟩ chains'
      ∧ ∀ k v, Has chains' k v ↔ if k = key then v = value else Has chains k v := by
  set idx := bucketIndex key s.map.capacity with hidx
  have hlt : idx < s.map.capacity := bucketIndex_lt _ h.capacity_pos
  rcases h.holds.setValue hsplit value with ⟨e, m, he, hm, hholds⟩
  have hkeys := h.keys idx
  rw [hsplit] at hkeys
  have hold : ∀ y ∈ ys ++ x :: zs, bucketIndex y.2.1 s.map.capacity = idx := by
    rw [← hsplit]
    exact h.placed idx
  have hplaced : ∀ y ∈ ys ++ (x.1, (x.2.1, value)) :: zs,
      bucketIndex y.2.1 s.map.capacity = idx := by
    intro y hy
    rcases List.mem_append.mp hy with hy | hy
    · exact hold y (List.mem_append_left _ hy)
    · rcases List.mem_cons.mp hy with rfl | hy
      · exact hold x (by simp)
      · exact hold y (by simp [hy])
  have hinv := h.replace hlt hholds rfl hplaced (by simpa using hkeys) (by simp [hsplit]) h.load
  refine ⟨e, m, _, he, hm, hinv, ?_⟩
  intro k v
  rw [h.has_replace hplaced]
  by_cases hk : k = key
  · subst hk
    have hother : ∀ a, (a, (k, v)) ∉ ys ++ zs := fun a hmem => h.key_once hsplit hmem hx.symm
    simp [← hidx, List.perm_middle.mem_iff, List.mem_cons, hother, hx]
  · rw [if_neg hk]
    split_ifs with hb
    · rw [h.has_iff, hb, hsplit]
      simp only [List.perm_middle.mem_iff, List.mem_cons, Prod.ext_iff, hx, hk, false_and,
        and_false, false_or]
    · rfl

/-- The chain of a key's bucket with the key's entry taken out. -/
lemma Inv.unlink (h : Inv s chains) {key : CStr} {ys zs : List Item} {x : Item} (hx : x.2.1 = key)
    (hsplit : chains (bucketIndex key s.map.capacity) = ys ++ x :: zs) {s' : State}
    (hholds : Holds s' (Function.update chains (bucketIndex key s.map.capacity) (ys ++ zs)))
    (hcap : s'.map.capacity = s.map.capacity) (hcount : s'.map.count = s.map.count - 1) :
    Inv s' (Function.update chains (bucketIndex key s.map.capacity) (ys ++ zs))
      ∧ ∀ k v, Has (Function.update chains (bucketIndex key s.map.capacity) (ys ++ zs)) k v
          ↔ k ≠ key ∧ Has chains k v := by
  set idx := bucketIndex key s.map.capacity with hidx
  have hlt : idx < s.map.capacity := bucketIndex_lt _ h.capacity_pos
  have hkeys := h.keys idx
  have hload := h.load
  rw [hsplit] at hkeys
  have hsub : (ys ++ zs).Sublist (ys ++ x :: zs) :=
    (List.sublist_cons_self x zs).append_left ys
  have hplaced : ∀ y ∈ ys ++ zs, bucketIndex y.2.1 s.map.capacity = idx := by
    intro y hy
    refine h.placed idx y ?_
    rw [hsplit]
    exact hsub.subset hy
  have hinv := h.replace hlt hholds hcap hplaced (hkeys.sublist (hsub.map _))
    (by rw [hcount, hsplit]; simp; ring) (by rw [hcount]; omega)
  refine ⟨hinv, fun k v => ?_⟩
  rw [h.has_replace hplaced]
  by_cases hk : k = key
  · subst hk
    have hother : ∀ a, (a, (k, v)) ∉ ys ++ zs := fun a hmem => h.key_once hsplit hmem hx.symm
    rw [if_pos hidx.symm]
    simp only [hother, exists_false, ne_eq, not_true_eq_false, false_and]
  · simp only [ne_eq, hk, not_false_eq_true, true_and]
    split_ifs with hb
    · rw [h.has_iff, hb, hsplit]
      simp only [List.perm_middle.mem_iff, List.mem_cons, Prod.ext_iff, hx, hk, false_and,
        and_false, false_or]
    · rfl

/-! ## The public functions -/

/-- Where the search for a key ends: in a miss, or at the entry with its predecessor. -/
lemma Inv.find (h : Inv s chains) (key : CStr) :
    ((∀ v, ¬ Has chains key v)
      ∧ ∃ p, findFrom s.mem key (s.mem.brk + 1) none
          (bucketPtr s.map (bucketIndex key s.map.capacity)) = .ok (p, none))
    ∨ ∃ ys x zs, chains (bucketIndex key s.map.capacity) = ys ++ x :: zs ∧ x.2.1 = key
        ∧ Has chains key x.2.2
        ∧ findFrom s.mem key (s.mem.brk + 1) none
            (bucketPtr s.map (bucketIndex key s.map.capacity))
            = .ok (ys.getLast?.map Prod.fst, some x.1) := by
  have hchain := h.holds.forest.chain (bucketIndex key s.map.capacity)
  have hlen := hchain.length_le_brk
  rcases key_cases (chains (bucketIndex key s.map.capacity)) key with
    hmiss | ⟨ys, x, zs, hsplit, hx, hys⟩
  · refine Or.inl ⟨fun v hv => ?_, findFrom_miss _ _ _ _ hchain hmiss (by omega)⟩
    rcases h.has_iff.mp hv with ⟨a, ha⟩
    exact hmiss _ ha rfl
  · refine Or.inr ⟨ys, x, zs, hsplit, hx, ?_, ?_⟩
    · refine h.has_iff.mpr ⟨x.1, ?_⟩
      rw [hsplit, ← hx]
      simp
    · rw [hsplit] at hchain hlen
      have hfind := findFrom_hit (s.mem.brk + 1) none _ ys zs x hchain hys hx
        (by simp at hlen; omega)
      simpa using hfind

/-- **`hmap_put`.**  An existing key keeps its place in the table and gets the new value; a new
key makes the table grow first if the load would pass `3/4`. -/
theorem Inv.put (h : Inv s chains) (key : CStr) (value : ℤ)
    (hgrow : 3 * (s.map.capacity : ℤ) < 4 * (s.map.count + 1) → s.map.capacity * 2 ≤ intMax) :
    ∃ s' chains', hmapPut M s key value = .ok s' ∧ Inv s' chains'
      ∧ (∀ k v, Has chains' k v ↔ if k = key then v = value else Has chains k v)
      ∧ ((∃ v, Has chains key v) → s'.map = s.map)
      ∧ ((∀ v, ¬ Has chains key v) → s'.map.count = s.map.count + 1
          ∧ s'.map.capacity = if 3 * (s.map.capacity : ℤ) < 4 * (s.map.count + 1)
              then s.map.capacity * 2 else s.map.capacity) := by
  have hlt := bucketIndex_lt key h.capacity_pos
  have hbucket := h.holds.loadBucket hlt
  have hsucc := intSucc_eq h.count_lt
  rcases h.find key with ⟨hnone, p, hfind⟩ | ⟨ys, x, zs, hsplit, hx, hhas, hfind⟩
  · have hover := h.overLoaded_iff
    by_cases hload : 3 * (s.map.capacity : ℤ) < 4 * (s.map.count + 1)
    · -- the table grows, and the bucket index is computed again
      rcases h.grow (hgrow hload) with ⟨s₁, chains₁, hrun, hinv₁, hcap₁, hcount₁, hroom, hhas₁⟩
      rcases hinv₁.prepend (M := M) value (fun v hv => hnone v ((hhas₁ _ _).mp hv)) hroom with
        ⟨s', chains', hpre, hinv', hcap', hcount', hiff⟩
      refine ⟨s', chains', ?_, hinv', ?_, ?_, ?_⟩
      · simp [hmapPut, hbucket, hfind, hsucc, hover.mpr hload, hrun, hpre]
      · intro k v
        rw [hiff, hhas₁]
      · rintro ⟨v, hv⟩
        exact absurd hv (hnone v)
      · intro _
        rw [if_pos hload, hcount', hcount₁, hcap', hcap₁]
        exact ⟨rfl, rfl⟩
    · have hfalse : overLoaded s.map = false := by
        rw [Bool.eq_false_iff]
        exact fun ht => hload (hover.mp ht)
      rcases h.prepend (M := M) value hnone (by omega) with
        ⟨s', chains', hpre, hinv', hcap', hcount', hiff⟩
      refine ⟨s', chains', ?_, hinv', hiff, ?_, ?_⟩
      · simp [hmapPut, hbucket, hfind, hsucc, hfalse, hpre]
      · rintro ⟨v, hv⟩
        exact absurd hv (hnone v)
      · intro _
        rw [if_neg hload]
        exact ⟨hcount', hcap'⟩
  · rcases h.setValue hx hsplit value with ⟨e, m, chains', he, hm, hinv', hiff⟩
    refine ⟨⟨m, s.map⟩, chains', ?_, hinv', hiff, fun _ => rfl, ?_⟩
    · simp [hmapPut, hbucket, hfind, he, hm]
    · intro hnone
      exact absurd hhas (hnone _)

/-- **`hmap_get`.**  On a miss the caller's variable is left alone. -/
theorem Inv.get (h : Inv s chains) (key : CStr) (out : ℤ) :
    (∀ v, Has chains key v → hmapGet s key out = .ok (1, v))
      ∧ ((∀ v, ¬ Has chains key v) → hmapGet s key out = .ok (0, out)) := by
  have hbucket := h.holds.loadBucket (bucketIndex_lt key h.capacity_pos)
  rcases h.find key with ⟨hnone, p, hfind⟩ | ⟨ys, x, zs, hsplit, hx, hhas, hfind⟩
  · refine ⟨fun v hv => absurd hv (hnone v), fun _ => ?_⟩
    simp [hmapGet, hbucket, hfind]
  · refine ⟨fun v hv => ?_, fun hnone => absurd hhas (hnone _)⟩
    have hchain := h.holds.forest.chain (bucketIndex key s.map.capacity)
    rcases hchain.view_of_mem (x := x) (by simp [hsplit]) with ⟨p, hview⟩
    rw [h.has_unique hv hhas]
    simp [hmapGet, hbucket, hfind, load_eq hview]

/-- **`hmap_delete`.**  Both ways of unlinking leave the bucket's chain without the entry. -/
theorem Inv.delete (h : Inv s chains) (key : CStr) :
    ((∃ v, Has chains key v) → ∃ s' chains', hmapDelete s key = .ok (1, s') ∧ Inv s' chains'
        ∧ s'.map.capacity = s.map.capacity ∧ s'.map.count = s.map.count - 1
        ∧ ∀ k v, Has chains' k v ↔ k ≠ key ∧ Has chains k v)
      ∧ ((∀ v, ¬ Has chains key v) → hmapDelete s key = .ok (0, s)) := by
  have hlt := bucketIndex_lt key h.capacity_pos
  have hbucket := h.holds.loadBucket hlt
  rcases h.find key with ⟨hnone, p, hfind⟩ | ⟨ys, x, zs, hsplit, hx, hhas, hfind⟩
  · refine ⟨?_, fun _ => ?_⟩
    · rintro ⟨v, hv⟩
      exact absurd hv (hnone v)
    · simp [hmapDelete, hbucket, hfind]
  · refine ⟨fun _ => ?_, fun hnone => absurd hhas (hnone _)⟩
    have hpred := intPred_eq h.count_gt
    rcases List.eq_nil_or_concat ys with rfl | ⟨ys, y, rfl⟩
    · -- the entry is the head of its bucket
      rcases h.holds.unlinkFirst hlt hsplit with ⟨e, map, m, he, hmap, hm, hcap, hcount, hholds⟩
      rcases h.unlink hx hsplit (hholds (map.count - 1)) hcap (by simp [hcount]) with
        ⟨hinv', hiff⟩
      refine ⟨_, _, ?_, hinv', hcap, by simp [hcount], hiff⟩
      simp [hmapDelete, hbucket, hfind, he, hmap, hm, hcount, hpred]
    · -- it has a predecessor
      rw [List.concat_eq_append] at hsplit hfind
      have hsplit' : chains (bucketIndex key s.map.capacity) = ys ++ y :: x :: zs := by
        simpa using hsplit
      rcases h.holds.unlinkMid hsplit' (s.map.count - 1) with ⟨e, m, m', he, hm, hm', hholds⟩
      have hcut : ys ++ y :: zs = (ys ++ [y]) ++ zs := by simp
      rw [hcut] at hholds
      rcases h.unlink hx hsplit hholds rfl rfl with ⟨hinv', hiff⟩
      refine ⟨_, _, ?_, hinv', rfl, rfl, hiff⟩
      simp [hmapDelete, hbucket, hfind, he, hm, hm', hpred]

end

end CExercises.HashTable
