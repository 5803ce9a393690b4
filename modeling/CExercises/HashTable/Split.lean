import CExercises.HashTable.Capacity

/-!
# `rehash` splits each bucket in two

The hash modulo `2 * c` decides the hash modulo `c`, so the entries of bucket `i` go to the new
buckets `i` and `i + c` and to no others.  `rehash_eq` says what a new bucket takes from the whole
table; on a table whose entries are where their hash puts them, that is a part of one old bucket.

`capacity * 2` and `count++` are computed in `int`, and the table need not be one that calls of
`hmap_put` lead to.  The split takes place exactly when neither leaves the range.
-/

namespace CExercises.HashTable

section

variable {s s' : State} {chains : ℕ → List Item} {c j : ℕ}

/-- The new table has twice the buckets, and bucket `j` is what hashes to `j` in the old bucket
`j % c`, in reverse. -/
def SplitsBuckets (s : State) (chains : ℕ → List Item) : Prop :=
  ∃ s' chains', rehash s = .ok s' ∧ Holds s' chains'
    ∧ s'.map.capacity = s.map.capacity * 2
    ∧ (∀ j, j < s.map.capacity * 2 → chains' j = ((chains (j % s.map.capacity)).filter
        fun x => (hashDjb2 x.2.1).toNat % (s.map.capacity * 2) = j).reverse)
    ∧ (entries chains' (s.map.capacity * 2)).Perm (entries chains s.map.capacity)
    ∧ s'.map.count = (entries chains s.map.capacity).length

/-! ## One bucket -/

lemma bucketIndex_double (key : CStr) (c : ℕ) : bucketIndex key (c * 2) % c = bucketIndex key c :=
  Nat.mod_mul_right_mod _ _ _

/-- Lists laid end to end, all but one of them empty. -/
lemma flatMap_range_single {β : Type} {f : ℕ → List β} {n i : ℕ} (hi : i < n)
    (hnil : ∀ k, k ≠ i → f k = []) : (List.range n).flatMap f = f i := by
  induction n with
  | zero => omega
  | succ n ih =>
      rw [List.range_succ, List.flatMap_append, List.flatMap_singleton]
      rcases Nat.lt_or_eq_of_le (Nat.le_of_lt_succ hi) with hlt | rfl
      · rw [ih hlt, hnil n (by omega), List.append_nil]
      · have hbefore : (List.range i).flatMap f = [] := by
          refine List.flatMap_eq_nil_iff.mpr fun k hk => hnil k ?_
          have := List.mem_range.mp hk
          omega
        rw [hbefore, List.nil_append]

/-- Of the whole table, only the old bucket `j % c` has entries for the new bucket `j`. -/
lemma filter_entries (hplaced : ∀ i, ∀ x ∈ chains i, bucketIndex x.2.1 c = i) (hc : 0 < c) :
    (entries chains c).filter (fun x => bucketIndex x.2.1 (c * 2) = j)
      = (chains (j % c)).filter fun x => bucketIndex x.2.1 (c * 2) = j := by
  rw [entries, List.filter_flatMap]
  refine flatMap_range_single (Nat.mod_lt j hc) fun i hi => ?_
  refine List.filter_eq_nil_iff.mpr fun x hx hj => hi ?_
  rw [← hplaced i x hx, ← bucketIndex_double, decide_eq_true_eq.mp hj]

/-! ## The counter -/

/-- Whatever the table looks like, a loop that returns has counted within the range of `int`. -/
lemma rehashChain_count_le : ∀ (fuel : ℕ) (s : State) (cur : Ptr), s.map.count ≤ INT_MAX →
    rehashChain fuel s cur = .ok s' → s'.map.count ≤ INT_MAX
  | 0, s, cur, _, hrun => by cases hrun
  | fuel + 1, s, cur, hle, hrun => by
      rw [rehashChain] at hrun
      split_ifs at hrun with hnone
      · cases hrun
        exact hle
      · simp only [bind_eq_ok] at hrun
        rcases hrun with ⟨e, _, head, _, m, _, map, _, count, hcount, hrest⟩
        exact rehashChain_count_le fuel _ e.next (intSucc_le_max hcount) hrest

lemma rehashAll_count_le : ∀ (roots : List Ptr) (s : State), s.map.count ≤ INT_MAX →
    roots.foldlM (fun s cur => rehashChain (s.mem.brk + 1) s cur) s = .ok s' →
    s'.map.count ≤ INT_MAX
  | [], s, hle, hrun => by
      cases hrun
      exact hle
  | cur :: roots, s, hle, hrun => by
      rw [List.foldlM_cons, bind_eq_ok] at hrun
      rcases hrun with ⟨s₁, hcur, hrest⟩
      exact rehashAll_count_le roots s₁ (rehashChain_count_le _ s cur hle hcur) hrest

lemma rehash_in_range (hrun : rehash s = .ok s') :
    s.map.capacity * 2 ≤ intMax ∧ s'.map.count ≤ INT_MAX := by
  unfold rehash at hrun
  split_ifs at hrun with hmax
  · cases hrun
  · have hzero : (0 : ℤ) ≤ INT_MAX := by decide
    exact ⟨not_lt.mp hmax, rehashAll_count_le _ _ hzero hrun⟩

lemma rehash_overflow (h : intMax < s.map.capacity * 2) : rehash s = .error .overflow := by
  unfold rehash
  rw [if_pos h]
  rfl

lemma natCast_intMax : ((intMax : ℕ) : ℤ) = INT_MAX := by decide

/-! ## The table -/

/-- A table without buckets has nothing to split. -/
lemma splits_of_zero (hs : Holds s chains) (hc : s.map.capacity = 0) : SplitsBuckets s chains := by
  have hnil : s.map.buckets = [] := List.length_eq_zero_iff.mp (by rw [hs.length, hc])
  refine ⟨⟨s.mem, ⟨[], 0, 0⟩⟩, fun _ => [], ?_, holds_fresh s.mem 0, ?_, ?_, ?_, ?_⟩
  · simp [rehash, hnil, hc]
  · rw [hc]
  · intro j hj
    omega
  · simp [entries, hc]
  · simp [entries, hc]

lemma splits_of_pos (hs : Holds s chains)
    (hplaced : ∀ i, ∀ x ∈ chains i, bucketIndex x.2.1 s.map.capacity = i)
    (hc : 0 < s.map.capacity) (hmax : s.map.capacity * 2 ≤ intMax)
    (hsize : (entries chains s.map.capacity).length ≤ intMax) : SplitsBuckets s chains := by
  have hsize' : ((entries chains s.map.capacity).length : ℤ) ≤ INT_MAX := by
    rw [← natCast_intMax]
    exact_mod_cast hsize
  rcases rehash_eq hs hc hmax hsize' with ⟨s', hrun, hholds, hcap, hcount⟩
  refine ⟨s', _, hrun, hholds, hcap, ?_, ?_, hcount⟩
  · intro j _
    rw [filter_entries hplaced hc]
    rfl
  · exact entries_filter_perm_self fun x _ => bucketIndex_lt _ (by omega)

/-- **The split**, for every table whose entries are where their hash puts them. -/
theorem rehash_splits_buckets (hs : Holds s chains)
    (hplaced : ∀ i, ∀ x ∈ chains i, bucketIndex x.2.1 s.map.capacity = i) :
    SplitsBuckets s chains ↔
      s.map.capacity * 2 ≤ intMax ∧ (entries chains s.map.capacity).length ≤ intMax := by
  constructor
  · rintro ⟨s', chains', hrun, _, _, _, _, hcount⟩
    obtain ⟨hmax, hle⟩ := rehash_in_range hrun
    rw [hcount, ← natCast_intMax] at hle
    exact ⟨hmax, by exact_mod_cast hle⟩
  · rintro ⟨hmax, hsize⟩
    rcases Nat.eq_zero_or_pos s.map.capacity with hc | hc
    · exact splits_of_zero hs hc
    · exact splits_of_pos hs hplaced hc hmax hsize

/-- Three keys for bucket 4 of eight. -/
def collidingClient : List Call := [.put keyA 1, .put keyI 2, .put keyQ 3]

/-- Whatever such a client has put is in bucket 4. -/
lemma collidingClient_bucket : ∀ c ∈ collidingClient, ∃ key value, c = .put key value
    ∧ lastPut key collidingClient none = some value ∧ bucketIndex key 8 = 4 := by
  intro c hc
  simp only [collidingClient, List.mem_cons, List.not_mem_nil, or_false] at hc
  rcases hc with rfl | rfl | rfl
  · exact ⟨_, _, rfl, by decide +kernel, by decide +kernel⟩
  · exact ⟨_, _, rfl, by decide +kernel, by decide +kernel⟩
  · exact ⟨_, _, rfl, by decide +kernel, by decide +kernel⟩

/-- Bucket 4 of eight holds all three, and the one in the middle moves to bucket 12. -/
theorem rehash_splits_buckets_collidingClient :
    ∃ s rets chains, run Malloc.bump collidingClient = .ok (s, rets) ∧ s.map.capacity = 8
      ∧ (∀ key value, .put key value ∈ collidingClient → ∃ a, (a, (key, value)) ∈ chains 4)
      ∧ SplitsBuckets s chains := by
  obtain ⟨s, fm, rets, hrun, _, ⟨chains, hinv, hfm⟩, hlook⟩ :=
    run_represents Malloc.bump collidingClient (capacityBelow_of_length _ (by decide))
  have hcap : (run Malloc.bump collidingClient).toOption.map (fun r => r.1.map.capacity)
      = some 8 := by
    decide +kernel
  rw [hrun] at hcap
  have hcap : s.map.capacity = 8 := Option.some.inj hcap
  have hcount := le_of_lt hinv.count_lt
  rw [hinv.count, ← natCast_intMax] at hcount
  refine ⟨s, rets, chains, hrun, hcap, fun key value hput => ?_, ?_⟩
  · obtain ⟨key', value', heq, hlast, hbucket⟩ := collidingClient_bucket _ hput
    cases heq
    have hhas := (hfm key value).mp (by rw [hlook, hlast])
    rw [hinv.has_iff, hcap, hbucket] at hhas
    exact hhas
  · exact (rehash_splits_buckets hinv.holds hinv.placed).mpr
      ⟨by rw [hcap]; decide, by exact_mod_cast hcount⟩

/-- A table of empty buckets. -/
def emptyTable (capacity : ℕ) : State :=
  ⟨Memory.empty, ⟨List.replicate capacity none, capacity, 0⟩⟩

/-- The number of `2 ^ 30` buckets cannot be doubled in an `int`. -/
theorem rehash_refuses_to_double :
    Holds (emptyTable (2 ^ 30)) (fun _ => [])
      ∧ (∀ i, ∀ x ∈ (fun _ => [] : ℕ → List Item) i, bucketIndex x.2.1 (2 ^ 30) = i)
      ∧ rehash (emptyTable (2 ^ 30)) = .error .overflow
      ∧ ¬ SplitsBuckets (emptyTable (2 ^ 30)) fun _ => [] := by
  have hdouble : intMax < 2 ^ 30 * 2 := by decide
  have hover : rehash (emptyTable (2 ^ 30)) = .error .overflow := rehash_overflow hdouble
  refine ⟨holds_fresh Memory.empty (2 ^ 30), fun _ _ hx => absurd hx List.not_mem_nil, hover, ?_⟩
  rintro ⟨s', chains', hrun, _⟩
  rw [hover] at hrun
  cases hrun

end

end CExercises.HashTable
