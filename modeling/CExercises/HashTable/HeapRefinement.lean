import CExercises.HashTable.Free
import CExercises.HashTable.HeapDef

/-!
# The blocks of the hash table

`Sim` says that the block-by-block table is the table of `HashTable/Def.lean`: the array its header
leads to holds the buckets, each entry leads to the one copy of its key, and there is no other copy
(`Owns`).  Then each function of the one model does what it does in the other, step by step, and
`Agrees.bind` puts the steps together.  While `rehash` runs there are two arrays, which is why `Sim`
has a parameter for the arrays besides the table's own.

The table with everything by value is known to be a finite map, and its live entries to be `count`
many.  What is left for `hmap_free` is to see that when the entries are gone, nothing owns a key.
-/

namespace CExercises.HashTable.Heap

/-- What an entry shows, with its key read through the pointer. -/
structure Shows (keys : Memory CStr) (e : Entry) (e' : HashTable.Entry) : Prop where
  key : keys.load e.key = .ok e'.key
  value : e.value = e'.value
  next : e.next = e'.next

/-- The key of the entry at an address. -/
def keyAt (entries : Memory Entry) (a : ℕ) : Ptr := (entries.cells a).bind Entry.key

/-- The entries are those of `mem`, and each of them owns the block of its key. -/
structure Owns (entries : Memory Entry) (keys : Memory CStr) (mem : Memory HashTable.Entry) :
    Prop where
  brk : entries.brk = mem.brk
  shows : ∀ a, Option.Rel (Shows keys) (entries.cells a) (mem.cells a)
  once : ∀ a b k, keyAt entries a = some k → keyAt entries b = some k → a = b
  owned : ∀ k, keys.cells k ≠ none → ∃ a, keyAt entries a = some k

/-- The two tables are the same, and `old` are the bucket arrays besides the one in use. -/
structure Sim (old : ℕ → Option (List Ptr)) (h : State) (s : HashTable.State) : Prop where
  owns : Owns h.entries h.keys s.mem
  array : ∃ b, h.map.buckets = some b ∧ old b = none
    ∧ h.arrays.cells = Function.update old b (some s.map.buckets)
  capacity : h.map.capacity = s.map.capacity
  count : h.map.count = s.map.count

/-- Both heaps have an entry at `p`. -/
def EntryAt (entries : Memory Entry) (mem : Memory HashTable.Entry) (p : Ptr) (e : Entry)
    (e' : HashTable.Entry) : Prop :=
  ∃ a, p = some a ∧ entries.cells a = some e ∧ mem.cells a = some e'

/-! ## One entry -/

section

variable {entries : Memory Entry} {keys : Memory CStr} {mem : Memory HashTable.Entry}

lemma owns_empty : Owns Memory.empty Memory.empty Memory.empty where
  brk := rfl
  shows _ := .none
  once := by
    intro a b k ha
    cases ha
  owned := by
    intro k hk
    exact absurd rfl hk

/-- Where there is an entry in one heap, there is its counterpart in the other. -/
lemma Owns.entry (h : Owns entries keys mem) {a : ℕ} {e : Entry} (he : entries.cells a = some e) :
    ∃ e', mem.cells a = some e' ∧ Shows keys e e' := by
  have hshows := h.shows a
  rw [he] at hshows
  generalize mem.cells a = o at hshows
  cases hshows with
  | some hshow => exact ⟨_, rfl, hshow⟩

lemma Owns.no_entry (h : Owns entries keys mem) {a : ℕ} (he : entries.cells a = none) :
    mem.cells a = none := by
  have hshows := h.shows a
  rw [he] at hshows
  generalize mem.cells a = o at hshows
  cases hshows
  rfl

/-- The block of a key is live as long as the entry is. -/
lemma Owns.key_live (h : Owns entries keys mem) {a k : ℕ} (ha : keyAt entries a = some k) :
    ∃ key, keys.cells k = some key := by
  obtain ⟨e, he, hk⟩ := Option.bind_eq_some_iff.mp ha
  obtain ⟨e', _, hshow⟩ := h.entry he
  obtain ⟨l, hl, hcell⟩ := Memory.live_of_load hshow.key
  rw [hk] at hl
  cases hl
  exact ⟨_, hcell⟩

/-- What an entry shows does not change unless its own key does. -/
lemma Owns.shows_of_frame (h : Owns entries keys mem) {keys' : Memory CStr} {a : ℕ}
    (hframe : ∀ k, keyAt entries a = some k → keys'.cells k = keys.cells k) :
    Option.Rel (Shows keys') (entries.cells a) (mem.cells a) := by
  cases he : entries.cells a with
  | none =>
      rw [h.no_entry he]
      exact .none
  | some e =>
      obtain ⟨e', he', hshow⟩ := h.entry he
      rw [he']
      obtain ⟨k, hk, hcell⟩ := Memory.live_of_load hshow.key
      refine .some ⟨?_, hshow.value, hshow.next⟩
      rw [hk]
      exact Memory.load_of_live (by rw [hframe k (by simp [keyAt, he, hk]), hcell])

lemma Owns.load (h : Owns entries keys mem) (p : Ptr) :
    Agrees (fun e e' => Shows keys e e' ∧ EntryAt entries mem p e e') (entries.load p)
      (mem.load p) := by
  cases p with
  | none => exact .error .nullDeref
  | some a =>
      cases he : entries.cells a with
      | none =>
          simp only [Memory.load, he, h.no_entry he]
          exact .error .dangling
      | some e =>
          obtain ⟨e', he', hshow⟩ := h.entry he
          rw [Memory.load_of_live he, Memory.load_of_live he']
          exact .ok ⟨hshow, a, rfl, he, he'⟩

/-- An entry that keeps its key may be overwritten. -/
lemma Owns.store (h : Owns entries keys mem) {p : Ptr} {e f : Entry} {e' f' : HashTable.Entry}
    (hat : EntryAt entries mem p e e') (hshow : Shows keys f f') (hkey : f.key = e.key) :
    Agrees (fun entries mem => Owns entries keys mem) (entries.store p f) (mem.store p f') := by
  obtain ⟨a, rfl, he, he'⟩ := hat
  rw [Memory.store_of_live he, Memory.store_of_live he']
  have hkeys : keyAt (entries.write a (some f) (Memory.lt_brk he)) = keyAt entries := by
    funext b
    simp only [keyAt, Memory.write_cells, Function.update_apply]
    split_ifs with hb
    · rw [hb, he]
      exact hkey
    · rfl
  refine .ok ⟨h.brk, fun b => ?_, ?_, ?_⟩
  · simp only [Memory.write_cells, Function.update_apply]
    split_ifs with hb
    · exact .some hshow
    · exact h.shows b
  · rw [hkeys]
    exact h.once
  · rw [hkeys]
    exact h.owned

/-- An entry goes together with its key, and no other entry loses its own. -/
lemma Owns.free (h : Owns entries keys mem) {p : Ptr} {e : Entry} {e' : HashTable.Entry}
    (hat : EntryAt entries mem p e e') (hshow : Shows keys e e') :
    ∃ keys' entries' mem', keys.free e.key = .ok keys' ∧ entries.free p = .ok entries'
      ∧ mem.free p = .ok mem' ∧ Owns entries' keys' mem' := by
  obtain ⟨a, rfl, he, he'⟩ := hat
  obtain ⟨k, hk, hcell⟩ := Memory.live_of_load hshow.key
  have hka : keyAt entries a = some k := by simp [keyAt, he, hk]
  refine ⟨_, _, _, by rw [hk]; exact Memory.free_of_live hcell, Memory.free_of_live he,
    Memory.free_of_live he', ?_⟩
  have hkeys : ∀ b, keyAt (entries.write a none (Memory.lt_brk he)) b
      = if b = a then none else keyAt entries b := by
    intro b
    simp only [keyAt, Memory.write_cells, Function.update_apply]
    split_ifs with hb
    · rfl
    · rfl
  refine ⟨h.brk, fun b => ?_, fun b c l hb hc => ?_, fun l hl => ?_⟩
  · simp only [Memory.write_cells, Function.update_apply]
    split_ifs with hb
    · exact .none
    · refine h.shows_of_frame fun l hl => Function.update_of_ne ?_ _ _
      rintro rfl
      exact hb (h.once b a l hl hka)
  · rw [hkeys] at hb hc
    split_ifs at hb hc
    exact h.once b c l hb hc
  · rw [Memory.write_cells, Function.update_apply] at hl
    split_ifs at hl with hlk
    · exact absurd rfl hl
    · obtain ⟨b, hb⟩ := h.owned l hl
      refine ⟨b, ?_⟩
      rw [hkeys, if_neg, hb]
      rintro rfl
      rw [hka] at hb
      exact hlk (Option.some.inj hb).symm

/-- A new entry with a new copy of its key. -/
lemma Owns.alloc (h : Owns entries keys mem) (M : Mallocs) (M' : Malloc HashTable.Entry)
    (hplace : M'.place mem = M.entries.place entries) (key : CStr) (value : ℤ) :
    Owns (M.entries.alloc entries ⟨some (M.keys.place keys), value, none⟩).2
      (M.keys.alloc keys key).2 (M'.alloc mem ⟨key, value, none⟩).2 := by
  have hnokey : ∀ a k, keyAt entries a = some k → k ≠ M.keys.place keys := by
    rintro a k ha rfl
    obtain ⟨key', hcell⟩ := h.key_live ha
    rw [M.keys.fresh keys] at hcell
    cases hcell
  have hkeys : ∀ a, keyAt (M.entries.alloc entries ⟨some (M.keys.place keys), value, none⟩).2 a
      = if a = M.entries.place entries then some (M.keys.place keys) else keyAt entries a := by
    intro a
    simp only [keyAt, Malloc.alloc_cells, Function.update_apply]
    split_ifs with ha
    · rfl
    · rfl
  refine ⟨?_, fun a => ?_, fun a b k ha hb => ?_, fun k hk => ?_⟩
  · show max _ _ = max _ _
    rw [hplace, h.brk]
  · simp only [Malloc.alloc_cells, hplace, Function.update_apply]
    split_ifs with ha
    · exact .some ⟨Memory.load_of_live (by simp), rfl, rfl⟩
    · exact h.shows_of_frame fun k hk => Function.update_of_ne (hnokey a k hk) _ _
  · rw [hkeys] at ha hb
    split_ifs at ha hb with ha' hb' hb'
    · rw [ha', hb']
    · cases ha
      exact absurd rfl (hnokey b _ hb)
    · cases hb
      exact absurd rfl (hnokey a _ ha)
    · exact h.once a b k ha hb
  · by_cases hk' : k = M.keys.place keys
    · exact ⟨M.entries.place entries, by rw [hkeys, if_pos rfl, hk']⟩
    · rw [Malloc.alloc_cells, Function.update_of_ne hk'] at hk
      obtain ⟨a, ha⟩ := h.owned k hk
      refine ⟨a, ?_⟩
      rw [hkeys, if_neg, ha]
      rintro rfl
      simp [keyAt, M.entries.fresh entries] at ha

lemma Owns.has_key (h : Owns entries keys mem) {a : ℕ} (ha : entries.cells a ≠ none) :
    ∃ k, keyAt entries a = some k := by
  obtain ⟨e, he⟩ := Option.ne_none_iff_exists'.mp ha
  obtain ⟨e', _, hshow⟩ := h.entry he
  obtain ⟨k, hk, _⟩ := Memory.live_of_load hshow.key
  exact ⟨k, by simp [keyAt, he, hk]⟩

/-- There are as many keys as entries. -/
lemma Owns.blocks_keys (h : Owns entries keys mem) : keys.blocks = entries.blocks := by
  symm
  refine Finset.card_bij (fun a _ => (keyAt entries a).getD 0) ?_ ?_ ?_
  · intro a ha
    obtain ⟨k, hk⟩ := h.has_key (Memory.mem_live.mp ha)
    obtain ⟨key, hkey⟩ := h.key_live hk
    simp [hk, hkey]
  · intro a ha b hb hab
    obtain ⟨k, hk⟩ := h.has_key (Memory.mem_live.mp ha)
    obtain ⟨l, hl⟩ := h.has_key (Memory.mem_live.mp hb)
    simp only [hk, hl, Option.getD_some] at hab
    exact h.once a b k hk (by rw [hl, hab])
  · intro k hk
    obtain ⟨a, ha⟩ := h.owned k (Memory.mem_live.mp hk)
    refine ⟨a, Memory.mem_live.mpr fun hnone => ?_, by simp [ha]⟩
    simp [keyAt, hnone] at ha

lemma Owns.blocks_entries (h : Owns entries keys mem) : entries.blocks = mem.blocks := by
  refine Memory.blocks_congr fun a => ?_
  cases he : entries.cells a with
  | none => simp [h.no_entry he]
  | some e =>
      obtain ⟨e', he', _⟩ := h.entry he
      simp [he']

end

/-! ## One step -/

section

variable {old : ℕ → Option (List Ptr)} {h : State} {s : HashTable.State} {M : Mallocs}

/-- Reading a bucket is the same in both. -/
lemma Sim.loadBucket (hs : Sim old h s) (i : ℕ) :
    loadBucket h.arrays h.map.buckets i = HashTable.loadBucket s.map i := by
  obtain ⟨b, hb, _, hcells⟩ := hs.array
  have hload : h.arrays.load h.map.buckets = .ok s.map.buckets := by
    rw [hb]
    exact Memory.load_of_live (by rw [hcells, Function.update_self])
  simp only [Heap.loadBucket, HashTable.loadBucket, hload, ok_bind]
  cases s.map.buckets[i]? with
  | none => rfl
  | some p => rfl

lemma Sim.storeBucket (hs : Sim old h s) (i : ℕ) (p : Ptr) :
    Agrees (fun arrays map => Sim old { h with arrays := arrays } ⟨s.mem, map⟩)
      (storeBucket h.arrays h.map.buckets i p) (HashTable.storeBucket s.map i p) := by
  obtain ⟨b, hb, hold, hcells⟩ := hs.array
  have hlive : h.arrays.cells b = some s.map.buckets := by rw [hcells, Function.update_self]
  have hload : h.arrays.load h.map.buckets = .ok s.map.buckets := by
    rw [hb]
    exact Memory.load_of_live hlive
  simp only [Heap.storeBucket, HashTable.storeBucket, hload, ok_bind]
  split_ifs with hi
  · rw [hb, Memory.store_of_live hlive]
    refine .ok ⟨hs.owns, ⟨b, hb, hold, ?_⟩, hs.capacity, hs.count⟩
    simp [hcells]
  · exact .error .outOfBounds

/-- New entries and arrays in place of the ones there. -/
lemma Sim.setNext (hs : Sim old h s) (p q : Ptr) :
    Agrees (fun entries mem => Sim old { h with entries := entries } ⟨mem, s.map⟩)
      (storeNext h.entries p q) (HashTable.storeNext s.mem p q) := by
  refine (hs.owns.load p).bind fun e e' hee => ?_
  obtain ⟨hshow, hat⟩ := hee
  have hnew : Shows h.keys { e with next := q } { e' with next := q } :=
    ⟨hshow.key, hshow.value, rfl⟩
  refine (hs.owns.store hat hnew rfl).mono fun entries mem howns => ?_
  exact ⟨howns, hs.array, hs.capacity, hs.count⟩

lemma Sim.findFrom (hs : Sim old h s) (key : CStr) : ∀ (fuel : ℕ) (prev cur : Ptr),
    Agrees Eq (findFrom h key fuel prev cur) (HashTable.findFrom s.mem key fuel prev cur)
  | 0, _, _ => .error .diverges
  | fuel + 1, prev, cur => by
      simp only [Heap.findFrom, HashTable.findFrom]
      split_ifs with hcur
      · exact .ok rfl
      · refine (hs.owns.load cur).bind fun e e' hee => ?_
        have hshow := hee.1
        rw [hshow.key, ok_bind]
        split_ifs with hkey
        · exact .ok rfl
        · rw [hshow.next]
          exact Sim.findFrom hs key fuel cur e'.next

/-- One old chain goes over in both. -/
lemma Sim.rehashChain : ∀ (fuel : ℕ) {h : State} {s : HashTable.State} (cur : Ptr), Sim old h s →
    Agrees (Sim old) (rehashChain fuel h cur) (HashTable.rehashChain fuel s cur)
  | 0, _, _, _, _ => .error .diverges
  | fuel + 1, h, s, cur, hs => by
      simp only [Heap.rehashChain, HashTable.rehashChain]
      split_ifs with hcur
      · exact .ok hs
      · refine (hs.owns.load cur).bind fun e e' hee => ?_
        have hshow := hee.1
        rw [hshow.key, ok_bind, hs.capacity, hs.loadBucket, hshow.next]
        refine (agrees_refl _).bind fun head _ hhead => ?_
        subst hhead
        refine (hs.setNext cur head).bind fun entries m hm => ?_
        refine (hm.storeBucket _ cur).bind fun arrays map hmap => ?_
        have hcount : h.map.count = map.count := hmap.count
        rw [hcount]
        refine (agrees_refl _).bind fun count _ heq => ?_
        subst heq
        exact Sim.rehashChain fuel e'.next ⟨hmap.owns, hmap.array,
          hs.capacity.symm.trans hmap.capacity, rfl⟩

/-- The arrays of a table that is not being rehashed: only its own. -/
abbrev Only : ℕ → Option (List Ptr) := fun _ => none

/-- The other arrays stay where they are. -/
lemma Sim.cells_old (hs : Sim old h s) {b : ℕ} {ps : List Ptr} (hb : old b = some ps) :
    h.arrays.cells b = some ps := by
  obtain ⟨c, _, hold, hcells⟩ := hs.array
  rw [hcells, Function.update_of_ne, hb]
  rintro rfl
  rw [hold] at hb
  cases hb

/-- **`rehash`.**  The new array is put beside the old one, the chains go over, and the old one is
freed. -/
lemma Sim.rehash (hs : Sim Only h s) (hlen : s.map.buckets.length = s.map.capacity) :
    Agrees (Sim Only) (rehash M h) (HashTable.rehash s) := by
  obtain ⟨b, hb, _, hcells⟩ := hs.array
  have hlive : h.arrays.cells b = some s.map.buckets := by rw [hcells, Function.update_self]
  have hfresh := M.arrays.fresh h.arrays
  simp only [Heap.rehash, HashTable.rehash, hs.capacity]
  split_ifs with hover
  · exact .error .overflow
  have hstart : Sim h.arrays.cells
      ⟨⟨(M.arrays.alloc h.arrays (List.replicate (s.map.capacity * 2) none)).2, h.entries, h.keys⟩,
        ⟨some (M.arrays.place h.arrays), s.map.capacity * 2, 0⟩⟩
      ⟨s.mem, ⟨List.replicate (s.map.capacity * 2) none, s.map.capacity * 2, 0⟩⟩ :=
    ⟨hs.owns, ⟨M.arrays.place h.arrays, rfl, hfresh, rfl⟩, rfl, rfl⟩
  rw [← hlen]
  rw [← hlen] at hstart
  refine (Agrees.foldlM_range s.map.buckets (fun h' s' i p hs' hi => ?_) hstart).bind_left
    fun h' s' hs' => ?_
  · have hload : Heap.loadBucket h'.arrays h.map.buckets i = .ok p := by
      simp only [Heap.loadBucket, hb, Memory.load_of_live (hs'.cells_old hlive), ok_bind, hi,
        pure_eq_ok]
    rw [hload, ok_bind, hs'.owns.brk]
    exact Sim.rehashChain _ p hs'
  · obtain ⟨c, hc, hfree, hcells'⟩ := hs'.array
    rw [hb, Memory.free_of_live (hs'.cells_old hlive), ok_bind]
    have hcb : c ≠ b := by
      rintro rfl
      rw [hlive] at hfree
      cases hfree
    refine .ok ⟨hs'.owns, ⟨c, hc, rfl, ?_⟩, hs'.capacity, hs'.count⟩
    have hgone : Function.update h.arrays.cells b none = Only := by
      rw [hcells, Function.update_idem]
      exact Function.update_eq_self b Only
    rw [Memory.write_cells, hcells', Function.update_comm hcb, hgone]

lemma Sim.overLoaded (hs : Sim old h s) : overLoaded h.map = HashTable.overLoaded s.map := by
  rw [Heap.overLoaded, HashTable.overLoaded, hs.capacity, hs.count]

lemma Sim.prependEntry (hs : Sim old h s) {M' : Malloc HashTable.Entry}
    (hplace : M'.place s.mem = M.entries.place h.entries) (idx : ℕ) (key : CStr) (value : ℤ) :
    Agrees (Sim old) (prependEntry M h idx key value) (HashTable.prependEntry M' s idx key value) := by
  have hnew : Sim old (entryCreate M h key value).2
      ⟨(HashTable.entryCreate M' s.mem key value).2, s.map⟩ :=
    ⟨hs.owns.alloc M M' hplace key value, hs.array, hs.capacity, hs.count⟩
  have haddr : (HashTable.entryCreate M' s.mem key value).1 = (entryCreate M h key value).1 := hplace
  have hhead := hnew.loadBucket idx
  simp only at hhead
  simp only [Heap.prependEntry, HashTable.prependEntry]
  rw [hhead, haddr]
  refine (agrees_refl _).bind fun head _ heq => ?_
  subst heq
  refine (hnew.setNext _ head).bind fun entries m hm => ?_
  refine (hm.storeBucket idx _).bind fun arrays map hmap => ?_
  have hcount : (entryCreate M h key value).2.map.count = map.count := hmap.count
  rw [hcount]
  refine (agrees_refl _).bind fun count _ heq => ?_
  subst heq
  exact .ok ⟨hmap.owns, hmap.array, hmap.capacity, rfl⟩

/-- The allocator that takes `p` when it can. -/
def atAddr (p : ℕ) : Malloc HashTable.Entry :=
  ⟨fun m => if m.cells p = none then p else m.brk, fun m => by
    split_ifs with hp
    · exact hp
    · exact m.unused _ (Nat.le_refl _)⟩

lemma Sim.place_eq (hs : Sim old h s) :
    (atAddr (M.entries.place h.entries)).place s.mem = M.entries.place h.entries :=
  if_pos (hs.owns.no_entry (M.entries.fresh h.entries))

/-- **`hmap_put`.**  Wherever the allocators of the blocks put the new entry, that is where the
other table has it too. -/
lemma Sim.put (hs : Sim Only h s) (hlen : s.map.buckets.length = s.map.capacity) (key : CStr)
    (value : ℤ) :
    ∃ p, Agrees (Sim Only) (hmapPut M h key value) (HashTable.hmapPut (atAddr p) s key value) := by
  -- where the new entry comes to lie depends on whether the table is rehashed first
  obtain ⟨p, hp⟩ : ∃ p, Agrees (Sim Only)
      (if Heap.overLoaded h.map then do
          let h ← Heap.rehash M h
          Heap.prependEntry M h (bucketIndex key h.map.capacity) key value
        else Heap.prependEntry M h (bucketIndex key s.map.capacity) key value)
      (if HashTable.overLoaded s.map then do
          let s ← HashTable.rehash s
          HashTable.prependEntry (atAddr p) s (bucketIndex key s.map.capacity) key value
        else HashTable.prependEntry (atAddr p) s (bucketIndex key s.map.capacity) key value) := by
    rw [hs.overLoaded]
    split_ifs with hover
    · have hre := hs.rehash (M := M) hlen
      generalize Heap.rehash M h = x at hre ⊢
      generalize HashTable.rehash s = y at hre ⊢
      cases hre with
      | error stop => exact ⟨0, .error stop⟩
      | @ok h₁ s₁ h₁₁ =>
          refine ⟨M.entries.place h₁.entries, ?_⟩
          simp only [ok_bind, h₁₁.capacity]
          exact h₁₁.prependEntry h₁₁.place_eq _ key value
    · exact ⟨_, hs.prependEntry hs.place_eq _ key value⟩
  refine ⟨p, ?_⟩
  simp only [Heap.hmapPut, HashTable.hmapPut]
  rw [hs.loadBucket, hs.capacity, hs.owns.brk]
  refine (agrees_refl _).bind fun head _ heq => ?_
  subst heq
  refine (hs.findFrom key _ none head).bind fun r _ heq => ?_
  subst heq
  obtain ⟨prev, cur⟩ := r
  simp only
  by_cases hcur : cur ≠ none
  · simp only [if_pos hcur]
    refine (hs.owns.load cur).bind fun e e' hee => ?_
    obtain ⟨hshow, hat⟩ := hee
    have hnew : Shows h.keys { e with value := value } { e' with value := value } :=
      ⟨hshow.key, rfl, hshow.next⟩
    refine (hs.owns.store hat hnew rfl).bind fun entries mem howns => ?_
    exact .ok ⟨howns, hs.array, hs.capacity, hs.count⟩
  · simp only [if_neg hcur]
    rw [hs.count]
    exact (agrees_refl _).bind fun _ _ _ => hp

lemma Sim.get (hs : Sim old h s) (key : CStr) (out : ℤ) :
    hmapGet h key out = HashTable.hmapGet s key out := by
  refine Agrees.eq ?_
  simp only [Heap.hmapGet, HashTable.hmapGet]
  rw [hs.loadBucket, hs.capacity, hs.owns.brk]
  refine (agrees_refl _).bind fun head _ heq => ?_
  subst heq
  refine (hs.findFrom key _ none head).bind fun r _ heq => ?_
  subst heq
  obtain ⟨prev, cur⟩ := r
  simp only
  split_ifs with hcur
  · exact .ok rfl
  · refine (hs.owns.load cur).bind fun e e' hee => ?_
    rw [hee.1.value]
    exact .ok rfl

/-- `free(cur->key); free(cur);`, beside the `free` of an entry with its key. -/
lemma Sim.freeEntry (hs : Sim old h s) {cur : Ptr} (hcur : cur ≠ none) :
    Agrees (fun h' mem => Sim old h' ⟨mem, s.map⟩) (freeEntry h cur) (s.mem.free cur) := by
  obtain ⟨a, rfl⟩ := Option.ne_none_iff_exists'.mp hcur
  cases he : h.entries.cells a with
  | none =>
      simp only [Heap.freeEntry, Memory.load, he, error_bind,
        Memory.free_of_dead (hs.owns.no_entry he)]
      exact .error .dangling
  | some e =>
      obtain ⟨e', he', hshow⟩ := hs.owns.entry he
      obtain ⟨keys, entries, mem, hkeys, hentries, hmem, howns⟩ :=
        hs.owns.free ⟨a, rfl, he, he'⟩ hshow
      simp only [Heap.freeEntry, Memory.load_of_live he, ok_bind, hkeys, hentries, hmem]
      exact .ok ⟨howns, hs.array, hs.capacity, hs.count⟩

lemma Sim.delete (hs : Sim old h s) (key : CStr) :
    Agrees (fun a b => a.1 = b.1 ∧ Sim old a.2 b.2) (hmapDelete h key)
      (HashTable.hmapDelete s key) := by
  simp only [Heap.hmapDelete, HashTable.hmapDelete]
  rw [hs.loadBucket, hs.capacity, hs.owns.brk]
  refine (agrees_refl _).bind fun head _ heq => ?_
  subst heq
  refine (hs.findFrom key _ none head).bind fun r _ heq => ?_
  subst heq
  obtain ⟨prev, cur⟩ := r
  simp only
  by_cases hcur : cur = none
  · simp only [if_pos hcur]
    exact .ok ⟨rfl, hs⟩
  · simp only [if_neg hcur]
    refine (hs.owns.load cur).bind fun e e' hee => ?_
    rw [hee.1.next]
    by_cases hprev : prev ≠ none
    · simp only [if_pos hprev]
      refine (hs.setNext prev e'.next).bind fun entries m hm => ?_
      refine (hm.freeEntry hcur).bind fun h' m' hm' => ?_
      have hcount : h'.map.count = s.map.count := hm'.count
      rw [hcount]
      refine (agrees_refl _).bind fun count _ heq => ?_
      subst heq
      exact .ok ⟨rfl, hm'.owns, hm'.array, hm'.capacity, rfl⟩
    · simp only [if_neg hprev]
      refine (hs.storeBucket _ e'.next).bind fun arrays map hmap => ?_
      refine (hmap.freeEntry hcur).bind fun h' m' hm' => ?_
      have hcount : h'.map.count = map.count := hm'.count
      rw [hcount]
      refine (agrees_refl _).bind fun count _ heq => ?_
      subst heq
      exact .ok ⟨rfl, hm'.owns, hm'.array, hm'.capacity, rfl⟩

/-- **One call** does in both tables the same. -/
lemma Sim.call (hs : Sim Only h s) (hlen : s.map.buckets.length = s.map.capacity) (c : Call) :
    ∃ p, Agrees (fun a b => Sim Only a.1 b.1 ∧ a.2 = b.2) (call M h c)
      (HashTable.call (atAddr p) s c) := by
  cases c with
  | put key value =>
      obtain ⟨p, hp⟩ := hs.put (M := M) hlen key value
      exact ⟨p, hp.bind fun _ _ h' => .ok ⟨h', rfl⟩⟩
  | get key out =>
      refine ⟨0, ?_⟩
      simp only [Heap.call, HashTable.call]
      rw [hs.get]
      refine (agrees_refl _).bind fun r _ heq => ?_
      subst heq
      exact .ok ⟨hs, rfl⟩
  | delete key =>
      refine ⟨0, (hs.delete key).bind fun a b hab => ?_⟩
      exact .ok ⟨hab.2, by rw [hab.1]⟩
  | contains key =>
      refine ⟨0, ?_⟩
      simp only [Heap.call, HashTable.call, Heap.hmapContains, HashTable.hmapContains]
      rw [hs.get]
      refine (agrees_refl _).bind fun r _ heq => ?_
      subst heq
      exact .ok ⟨hs, rfl⟩

lemma Sim.freeChain : ∀ (fuel : ℕ) {h : State} {s : HashTable.State} (cur : Ptr), Sim old h s →
    Agrees (fun h' mem => Sim old h' ⟨mem, s.map⟩) (freeChain fuel h cur)
      (CExercises.freeChain entryView fuel s.mem cur)
  | 0, _, _, _, _ => .error .diverges
  | fuel + 1, h, s, cur, hs => by
      simp only [Heap.freeChain, CExercises.freeChain]
      split_ifs with hcur
      · exact .ok hs
      · refine (hs.owns.load cur).bind fun e e' hee => ?_
        rw [hee.1.next]
        exact (hs.freeEntry hcur).bind fun h' mem hs' => Sim.freeChain fuel e'.next hs'

end

/-! ## Clients -/

/-- The blocks hold the bindings of `fm`, and nothing else. -/
def Stands (h : State) (fm : FMap) : Prop :=
  ∃ s, Sim Only h s ∧ Represents s fm ∧ (s.mem.blocks : ℤ) = s.map.count

section

variable {M : Mallocs} {h : State} {s : HashTable.State} {fm : FMap}

lemma sim_create (M : Mallocs) : Sim Only (hmapCreate M) HashTable.hmapCreate where
  owns := owns_empty
  array := ⟨M.arrays.place Memory.empty, rfl, rfl, rfl⟩
  capacity := rfl
  count := rfl

lemma stands_create (M : Mallocs) : Stands (hmapCreate M) ∅ :=
  ⟨HashTable.hmapCreate, sim_create M, represents_create, rfl⟩

/-- One call, with the finite map as the specification. -/
theorem stands_call (M : Mallocs) (h : State) (fm : FMap) (c : Call) (hst : Stands h fm)
    (hcap : h.map.capacity < 2 ^ 30) : Matches Stands (call M h c) (mapCall fm c) := by
  obtain ⟨s, hs, hrep, hblocks⟩ := hst
  obtain ⟨chains, hinv, _⟩ := id hrep
  obtain ⟨p, hp⟩ := hs.call (M := M) hinv.holds.length c
  have hmatch := represents_call (atAddr p) s fm c hrep (by rw [← hs.capacity]; exact hcap)
  cases hspec : mapCall fm c with
  | error stop =>
      rw [hspec] at hmatch
      have hcall : HashTable.call (atAddr p) s c = .error stop := hmatch
      rw [hcall] at hp
      generalize call M h c = x at hp ⊢
      cases hp
      rfl
  | ok r =>
      obtain ⟨fm', r⟩ := r
      rw [hspec] at hmatch
      obtain ⟨s', hcall, hrep'⟩ := hmatch
      rw [hcall] at hp
      obtain ⟨⟨h', r'⟩, hh, hsim, rfl⟩ := hp.of_ok
      have hbalanced := balanced_call hinv hcall
      refine ⟨h', hh, s', hsim, hrep', ?_⟩
      unfold Balanced at hbalanced
      omega

/-- A table of capacity `8 * 2 ^ m` stays below `2 ^ 30` for another `26 - m` calls. -/
lemma along_capacity (M : Mallocs) : ∀ (cs : List Call) (m : ℕ) (h : State) (s : HashTable.State)
    (chains : ℕ → List Item), Sim Only h s → Inv s chains → h.map.capacity ≤ 8 * 2 ^ m →
      m + cs.length ≤ 26 → Along (fun h => h.map.capacity < 2 ^ 30) (call M) h cs := by
  intro cs
  induction cs with
  | nil =>
      intro m h s chains _ _ hcap hm
      have hpow : 2 ^ m ≤ 2 ^ 26 := Nat.pow_le_pow_right (by omega) (by simpa using hm)
      show h.map.capacity < 2 ^ 30
      omega
  | cons c cs ih =>
      intro m h s chains hs hinv hcap hm
      rw [List.length_cons] at hm
      have hpow : 2 ^ m ≤ 2 ^ 26 := Nat.pow_le_pow_right (by omega) (by omega)
      have hlt : h.map.capacity < 2 ^ 30 := by omega
      refine ⟨hlt, fun h' r hcall => ?_⟩
      obtain ⟨p, hp⟩ := hs.call (M := M) hinv.holds.length c
      rw [hcall] at hp
      obtain ⟨⟨s', _⟩, hcall', hs', _⟩ := hp.of_ok_left
      rw [hs.capacity] at hlt hcap
      obtain ⟨_, hle, chains', hinv'⟩ := capacity_call hinv hlt hcall'
      have hcap' : h'.map.capacity = s'.map.capacity := hs'.capacity
      exact ih (m + 1) h' s' chains' hs' hinv' (by rw [Nat.pow_succ]; omega) (by omega)

/-- Short clients keep the promise whatever they do. -/
lemma capacityBelow_of_length (M : Mallocs) {cs : List Call} (h : cs.length ≤ 26) :
    CapacityBelow M cs :=
  along_capacity M cs 0 _ _ _ (sim_create M) inv_create (Nat.le_refl _) (by omega)

/-- One array, and an entry with its key for each binding. -/
lemma Stands.blocks (hst : Stands h fm) :
    h.arrays.blocks = 1 ∧ h.entries.blocks = fm.keys.card ∧ h.keys.blocks = fm.keys.card := by
  obtain ⟨s, hs, hrep, hblocks⟩ := hst
  obtain ⟨b, _, _, hcells⟩ := hs.array
  have hcount := hrep.count_eq
  have hentries := hs.owns.blocks_entries
  have hkeys := hs.owns.blocks_keys
  refine ⟨Memory.blocks_eq_one (p := b) (by simp [hcells]) fun q hq => ?_, by omega, by omega⟩
  rw [hcells, Function.update_of_ne hq]

/-- **`hmap_free`**, up to the header: every block is given back. -/
lemma Stands.free (hst : Stands h fm) :
    ∃ gone, freeBlocks h = .ok gone ∧ (∀ p, gone.arrays.cells p = none)
      ∧ (∀ p, gone.entries.cells p = none) ∧ ∀ p, gone.keys.cells p = none := by
  obtain ⟨s, hs, ⟨chains, hinv, _⟩, hblocks⟩ := hst
  obtain ⟨mem, hfree, hempty⟩ := hinv.free hblocks
  have hloop : Agrees (fun h' mem => Sim Only h' ⟨mem, s.map⟩)
      ((List.range h.map.capacity).foldlM (fun h i => do
        let cur ← Heap.loadBucket h.arrays h.map.buckets i
        Heap.freeChain (h.entries.brk + 1) h cur) h) (freeEntries s) := by
    rw [freeEntries, hs.capacity]
    refine Agrees.foldlM (fun h' mem i hs' => ?_) _ hs
    rw [hs'.loadBucket i, hs'.owns.brk]
    refine (agrees_refl _).bind fun cur _ heq => ?_
    subst heq
    exact hs'.freeChain _ cur
  rw [hfree] at hloop
  obtain ⟨h', hrun, hs'⟩ := hloop.of_ok
  obtain ⟨b, hb, _, hcells⟩ := hs'.array
  have hlive : h'.arrays.cells b = some s.map.buckets := by rw [hcells, Function.update_self]
  have hentries : ∀ p, h'.entries.cells p = none := by
    intro p
    by_contra hne
    obtain ⟨e, he⟩ := Option.ne_none_iff_exists'.mp hne
    obtain ⟨e', he', _⟩ := hs'.owns.entry he
    rw [hempty p] at he'
    cases he'
  refine ⟨⟨h'.arrays.write b none (Memory.lt_brk hlive), h'.entries, h'.keys⟩, ?_, fun p => ?_,
    hentries, fun k => ?_⟩
  · rw [freeBlocks, hrun, ok_bind, hb, Memory.free_of_live hlive]
    rfl
  · show Function.update h'.arrays.cells b none p = none
    rw [hcells, Function.update_idem]
    exact congrFun (Function.update_eq_self b Only) p
  · -- a key that is left would have an owner
    by_contra hk
    obtain ⟨a, ha⟩ := hs'.owns.owned k hk
    simp [keyAt, hentries a] at ha

end

/-- **Nothing is lost.**  After any run through the pointer there are one header, one array of
buckets, and for every key of the finite map one entry and one copy of the key, and `hmap_free`
gives every one of them back, each once. -/
theorem hmap_run_frees (MH : Malloc HashMap) (M : Mallocs) (cs : List Call)
    (hcap : CapacityBelow M cs) :
    ∃ map fm rets gone, runPtr MH M cs = .ok (map, rets) ∧ mapRun cs = .ok (fm, rets)
      ∧ map.headers.blocks = 1 ∧ map.rest.arrays.blocks = 1
      ∧ map.rest.entries.blocks = fm.keys.card ∧ map.rest.keys.blocks = fm.keys.card
      ∧ hmapFree map = .ok gone ∧ (∀ p, gone.headers.cells p = none)
      ∧ (∀ p, gone.rest.arrays.cells p = none) ∧ (∀ p, gone.rest.entries.cells p = none)
      ∧ ∀ p, gone.rest.keys.cells p = none := by
  have hmatch := runCalls_matches_along (stands_call M) cs (hmapCreate M) ∅ (stands_create M) hcap
  obtain ⟨fm, rets, hspec, _⟩ := mapRun_lookup cs ∅
  rw [hspec] at hmatch
  obtain ⟨h, hrun, hst⟩ := hmatch
  obtain ⟨map, hmap, hbehind⟩ :=
    (Handle.behind_create (e := layout) MH (hmapCreate M)).run_ok hrun
  obtain ⟨harrays, hentries, hkeys⟩ := hst.blocks
  obtain ⟨rest, hfree, harrays', hentries', hkeys'⟩ := hst.free
  obtain ⟨gone, hgone, hrest, hheaders⟩ := hbehind.free hfree
  have hblocks : map.rest = h.toBlocks := hbehind.rest
  refine ⟨map, fm, rets, gone, hmap, hspec, hbehind.blocks, ?_, ?_, ?_, hgone, hheaders, ?_, ?_, ?_⟩
  · rw [hblocks, harrays]
  · rw [hblocks, hentries]
  · rw [hblocks, hkeys]
  · rw [hrest]
    exact harrays'
  · rw [hrest]
    exact hentries'
  · rw [hrest]
    exact hkeys'

/-- No heap reuses an address. -/
def bumps : Mallocs := ⟨Malloc.bump, Malloc.bump, Malloc.bump⟩

/-- Seven keys came, the table has grown, and one key has gone again. -/
theorem hmap_run_frees_growingClient :
    CapacityBelow bumps growingClient
      ∧ ∃ map rets gone, runPtr Malloc.bump bumps growingClient = .ok (map, rets)
        ∧ map.headers.blocks = 1 ∧ map.rest.arrays.blocks = 1 ∧ map.rest.entries.blocks = 6
        ∧ map.rest.keys.blocks = 6 ∧ hmapFree map = .ok gone
        ∧ (∀ p, gone.headers.cells p = none) ∧ (∀ p, gone.rest.arrays.cells p = none)
        ∧ (∀ p, gone.rest.entries.cells p = none) ∧ ∀ p, gone.rest.keys.cells p = none := by
  have hbelow : CapacityBelow bumps growingClient := capacityBelow_of_length _ (by decide)
  obtain ⟨map, fm, rets, gone, hrun, hspec, hheader, harray, hentries, hkeys, hfree, hgone⟩ :=
    hmap_run_frees Malloc.bump bumps growingClient hbelow
  have hcard : (mapRun growingClient).toOption.map (fun r => r.1.keys.card) = some 6 := by
    decide +kernel
  rw [hspec] at hcard
  have hcard : fm.keys.card = 6 := Option.some.inj hcard
  rw [hcard] at hentries hkeys
  exact ⟨hbelow, map, rets, gone, hrun, hheader, harray, hentries, hkeys, hfree, hgone⟩

end CExercises.HashTable.Heap
