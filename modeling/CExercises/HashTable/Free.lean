import CExercises.Core.Live
import CExercises.HashTable.Refinement

/-!
# No entry is lost

`Balanced` says that a call changes `count` and the number of live entries by the same amount.  All
but one of the functions show it line by line; `rehash` sets `count` to zero and counts again, and
there the representation invariant has to say that it arrives where it was.

The loop of `hmap_free` then frees bucket after bucket.  A bucket is not touched while another one is
freed, because the chains share no entry.  What else there is to free is in
`HashTable/HeapRefinement.lean`.
-/

namespace CExercises.HashTable

/-- The loop of `hmap_free`, on entries that hold their keys themselves. -/
def freeEntries (s : State) : Except Stop (Memory Entry) :=
  (List.range s.map.capacity).foldlM (fun m i => do
    let cur ← loadBucket s.map i
    freeChain entryView (m.brk + 1) m cur) s.mem

/-- From `s` to `s'`, as many blocks came or went as `count` says. -/
def Balanced (s s' : State) : Prop :=
  (s'.mem.blocks : ℤ) - s.mem.blocks = s'.map.count - s.map.count

section

variable {M : Malloc Entry} {s s' s'' : State} {chains : ℕ → List Item}

lemma Balanced.trans (h : Balanced s s') (h' : Balanced s' s'') : Balanced s s'' := by
  unfold Balanced at *
  omega

lemma balanced_refl (s : State) : Balanced s s := by
  simp [Balanced]

lemma blocks_storeNext {m m' : Memory Entry} {p q : Ptr} (h : storeNext m p q = .ok m') :
    m'.blocks = m.blocks := by
  obtain ⟨e, _, h⟩ := bind_eq_ok.mp h
  exact Memory.blocks_store h

lemma count_storeBucket {map map' : HashMap} {i : ℕ} {p : Ptr} (h : storeBucket map i p = .ok map') :
    map'.count = map.count := by
  simp only [storeBucket] at h
  split at h
  · cases h
    rfl
  · cases h

/-! ## Calls -/

lemma blocks_rehashChain : ∀ (fuel : ℕ) {s s' : State} {cur : Ptr},
    rehashChain fuel s cur = .ok s' → s'.mem.blocks = s.mem.blocks
  | 0, _, _, _, h => by cases h
  | fuel + 1, s, s', cur, h => by
      simp only [rehashChain] at h
      split at h
      · cases h
        rfl
      · obtain ⟨e, _, h⟩ := bind_eq_ok.mp h
        obtain ⟨head, _, h⟩ := bind_eq_ok.mp h
        obtain ⟨m, hm, h⟩ := bind_eq_ok.mp h
        obtain ⟨map, _, h⟩ := bind_eq_ok.mp h
        obtain ⟨count, _, h⟩ := bind_eq_ok.mp h
        rw [blocks_rehashChain fuel h, blocks_storeNext hm]

lemma blocks_rehashAll : ∀ (roots : List Ptr) {s s' : State},
    roots.foldlM (fun s cur => rehashChain (s.mem.brk + 1) s cur) s = .ok s' →
      s'.mem.blocks = s.mem.blocks
  | [], s, s', h => by
      cases h
      rfl
  | p :: roots, s, s', h => by
      rw [List.foldlM_cons] at h
      obtain ⟨s₁, hs₁, h⟩ := bind_eq_ok.mp h
      rw [blocks_rehashAll roots h, blocks_rehashChain _ hs₁]

/-- The new array has every entry, and the count is what it was. -/
lemma balanced_rehash (hinv : Inv s chains) (h : rehash s = .ok s') : Balanced s s' := by
  have hgrow : s.map.capacity * 2 ≤ intMax := by
    by_contra hover
    simp [rehash, Nat.not_le.mp hover] at h
  obtain ⟨s₁, _, hrun, _, _, hcount, _⟩ := hinv.rehash hgrow
  rw [h] at hrun
  cases hrun
  simp only [rehash, if_neg (Nat.not_lt.mpr hgrow)] at h
  have hblocks := blocks_rehashAll _ h
  rw [Balanced, hcount, hblocks]
  simp

lemma balanced_prepend {idx : ℕ} {key : CStr} {value : ℤ}
    (h : prependEntry M s idx key value = .ok s') : Balanced s s' := by
  simp only [prependEntry] at h
  obtain ⟨head, _, h⟩ := bind_eq_ok.mp h
  obtain ⟨m, hm, h⟩ := bind_eq_ok.mp h
  obtain ⟨map, hmap, h⟩ := bind_eq_ok.mp h
  obtain ⟨count, hcount, h⟩ := bind_eq_ok.mp h
  cases h
  have hnew : (entryCreate M s.mem key value).2.blocks = s.mem.blocks + 1 := M.blocks_alloc s.mem _
  simp only [Balanced, blocks_storeNext hm, hnew, intSucc_inv hcount, count_storeBucket hmap]
  omega

lemma balanced_put (hinv : Inv s chains) {key : CStr} {value : ℤ}
    (h : hmapPut M s key value = .ok s') : Balanced s s' := by
  simp only [hmapPut] at h
  obtain ⟨head, _, h⟩ := bind_eq_ok.mp h
  obtain ⟨r, _, h⟩ := bind_eq_ok.mp h
  split at h
  · obtain ⟨e, _, h⟩ := bind_eq_ok.mp h
    obtain ⟨m, hm, h⟩ := bind_eq_ok.mp h
    cases h
    simp [Balanced, Memory.blocks_store hm]
  · obtain ⟨_, _, h⟩ := bind_eq_ok.mp h
    split at h
    · obtain ⟨s₁, hs₁, h⟩ := bind_eq_ok.mp h
      exact (balanced_rehash hinv hs₁).trans (balanced_prepend h)
    · exact balanced_prepend h

lemma balanced_shrink {m : Memory Entry} {map : HashMap} {count : ℤ}
    (hm : m.blocks + 1 = s.mem.blocks) (hcount : count = s.map.count - 1) :
    Balanced s ⟨m, { map with count := count }⟩ := by
  simp only [Balanced, hcount]
  omega

lemma balanced_delete {key : CStr} {r : ℤ} (h : hmapDelete s key = .ok (r, s')) :
    Balanced s s' := by
  simp only [hmapDelete] at h
  obtain ⟨head, _, h⟩ := bind_eq_ok.mp h
  obtain ⟨⟨prev, cur⟩, _, h⟩ := bind_eq_ok.mp h
  split at h
  · cases h
    exact balanced_refl s
  · rename_i hcur
    obtain ⟨e, _, h⟩ := bind_eq_ok.mp h
    split at h
    · obtain ⟨m, hm, h⟩ := bind_eq_ok.mp h
      obtain ⟨m', hm', h⟩ := bind_eq_ok.mp h
      obtain ⟨count, hcount, h⟩ := bind_eq_ok.mp h
      cases h
      refine balanced_shrink ?_ (intPred_inv hcount)
      rw [Memory.blocks_free hcur hm', blocks_storeNext hm]
    · obtain ⟨map, hmap, h⟩ := bind_eq_ok.mp h
      obtain ⟨m, hm, h⟩ := bind_eq_ok.mp h
      obtain ⟨count, hcount, h⟩ := bind_eq_ok.mp h
      cases h
      refine balanced_shrink (Memory.blocks_free hcur hm) ?_
      rw [intPred_inv hcount, count_storeBucket hmap]

lemma balanced_call {c : Call} {r : Ret} (hinv : Inv s chains) (h : call M s c = .ok (s', r)) :
    Balanced s s' := by
  cases c with
  | put key value =>
      obtain ⟨t, ht, h⟩ := bind_eq_ok.mp h
      cases h
      exact balanced_put hinv ht
  | get key out =>
      obtain ⟨t, _, h⟩ := bind_eq_ok.mp h
      cases h
      exact balanced_refl s
  | delete key =>
      obtain ⟨t, ht, h⟩ := bind_eq_ok.mp h
      cases h
      exact balanced_delete ht
  | contains key =>
      obtain ⟨t, _, h⟩ := bind_eq_ok.mp h
      cases h
      exact balanced_refl s

/-! ## `hmap_free` -/

/-- Freeing the chains of some buckets leaves those of the others alone. -/
lemma freeBuckets_eq {map : HashMap} (hdisj : ∀ i j, i ≠ j → ∀ a ∈ addrs (chains i),
      a ∉ addrs (chains j)) (hload : ∀ i < map.capacity, loadBucket map i = .ok (bucketPtr map i)) :
    ∀ (is : List ℕ) (m : Memory Entry), is.Nodup → (∀ i ∈ is, i < map.capacity) →
      (∀ i ∈ is, Chain (m.view entryView) (bucketPtr map i) (chains i) none) →
        ∃ m', is.foldlM (fun m i => do
            let cur ← loadBucket map i
            freeChain entryView (m.brk + 1) m cur) m = .ok m'
          ∧ m'.blocks + (is.flatMap chains).length = m.blocks
  | [], m, _, _, _ => ⟨m, rfl, by simp⟩
  | i :: is, m, hnd, hlt, hchain => by
      obtain ⟨hi, hnd⟩ := List.nodup_cons.mp hnd
      have hhere := hchain i List.mem_cons_self
      have hlen := hhere.length_le_brk
      obtain ⟨m₁, hm₁, hgone, hframe⟩ := freeChain_eq (f := entryView) (m.brk + 1) hhere (by omega)
      have hrest : ∀ j ∈ is, Chain (m₁.view entryView) (bucketPtr map j) (chains j) none := by
        intro j hj
        refine (hchain j (List.mem_cons_of_mem _ hj)).congr fun a ha => hframe a ?_
        refine hdisj j i ?_ a ha
        rintro rfl
        exact hi hj
      obtain ⟨m', hm', hblocks⟩ := freeBuckets_eq hdisj hload is m₁ hnd
        (fun j hj => hlt j (List.mem_cons_of_mem _ hj)) hrest
      refine ⟨m', ?_, ?_⟩
      · rw [List.foldlM_cons, hload i (hlt i List.mem_cons_self), ok_bind, hm₁, ok_bind]
        exact hm'
      · rw [List.flatMap_cons, List.length_append]
        omega

lemma Inv.free (h : Inv s chains) (hblocks : (s.mem.blocks : ℤ) = s.map.count) :
    ∃ m, freeEntries s = .ok m ∧ ∀ p, m.cells p = none := by
  obtain ⟨m, hm, hgone⟩ := freeBuckets_eq h.holds.forest.disjoint
    (fun i hi => h.holds.loadBucket hi) (List.range s.map.capacity) s.mem List.nodup_range
    (fun i hi => List.mem_range.mp hi) (fun i _ => h.holds.forest.chain i)
  refine ⟨m, hm, Memory.blocks_eq_zero.mp ?_⟩
  have hcount : s.map.count = ((List.range s.map.capacity).flatMap chains).length := h.count
  omega

end

end CExercises.HashTable
