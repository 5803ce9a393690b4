import CExercises.HashTable.Invariant
import Mathlib.Data.Finmap

/-!
# The hash table implements a finite map

`mapCall` is the specification: a finite map from strings to integers, with no buckets, no chains
and no capacity.  `represents_call` compares one call of the code with it, and the run theorems
follow by `runCalls_matches_along`.  The side condition along the run is the client's promise that
the capacity stays below `2 ^ 30`, so that doubling it never overflows an `int`.
-/

namespace CExercises.HashTable

/-- A finite map from strings to integers. -/
abbrev FMap := Finmap (fun _ : CStr => ℤ)

/-- What each call does to a finite map. -/
def mapCall (fm : FMap) : Call → Except Stop (FMap × Ret)
  | .put key value => .ok (fm.insert key value, .unit)
  | .get key out =>
      match fm.lookup key with
      | some v => .ok (fm, .got 1 v)
      | none => .ok (fm, .got 0 out)
  | .delete key => .ok (fm.erase key, .flag (if (fm.lookup key).isSome then 1 else 0))
  | .contains key => .ok (fm, .flag (if (fm.lookup key).isSome then 1 else 0))

/-- A client's calls on a finite map that starts empty. -/
def mapRun (cs : List Call) : Except Stop (FMap × List Ret) := runCalls mapCall ∅ cs

/-- The value of the last `hmap_put` of a key that no `hmap_delete` of it follows. -/
def lastPut (key : CStr) : List Call → Option ℤ → Option ℤ
  | [], acc => acc
  | .put k v :: cs, acc => lastPut key cs (if k = key then some v else acc)
  | .delete k :: cs, acc => lastPut key cs (if k = key then none else acc)
  | .get _ _ :: cs, acc => lastPut key cs acc
  | .contains _ :: cs, acc => lastPut key cs acc

/-- The table holds the bindings of `fm`. -/
def Represents (s : State) (fm : FMap) : Prop :=
  ∃ chains, Inv s chains ∧ ∀ k v, fm.lookup k = some v ↔ Has chains k v

section

variable {M : Malloc Entry} {s : State} {fm : FMap}

lemma represents_create : Represents hmapCreate ∅ := by
  refine ⟨_, inv_create, fun k v => ?_⟩
  simp [Has]

/-- The growth a put may trigger fits an `int` as long as the capacity is below `2 ^ 30`. -/
lemma doubles_below (hcap : s.map.capacity < 2 ^ 30) : s.map.capacity * 2 ≤ intMax := by
  unfold intMax
  omega

/-! ## One call -/

lemma Represents.put (M : Malloc Entry) (h : Represents s fm) (key : CStr) (value : ℤ)
    (hcap : s.map.capacity < 2 ^ 30) :
    ∃ s', hmapPut M s key value = .ok s' ∧ Represents s' (fm.insert key value) := by
  rcases h with ⟨chains, hinv, hfm⟩
  rcases hinv.put (M := M) key value (fun _ => doubles_below hcap) with
    ⟨s', chains', hrun, hinv', hiff, _⟩
  refine ⟨s', hrun, chains', hinv', fun k v => ?_⟩
  rw [hiff]
  by_cases hk : k = key
  · subst hk
    simp [Finmap.lookup_insert, eq_comm]
  · rw [Finmap.lookup_insert_of_ne fm hk, if_neg hk, hfm]

/-- A key the map does not bind has no entry in the table. -/
lemma not_has_of_lookup {chains : ℕ → List Item} {key : CStr}
    (hfm : ∀ k v, fm.lookup k = some v ↔ Has chains k v) (hkey : fm.lookup key = none) (v : ℤ) :
    ¬ Has chains key v := by
  intro hv
  rw [← hfm, hkey] at hv
  cases hv

/-- A hit returns what the map binds; a miss leaves the caller's variable alone. -/
lemma Represents.get (h : Represents s fm) (key : CStr) (out : ℤ) :
    hmapGet s key out = .ok (match fm.lookup key with
      | some v => (1, v)
      | none => (0, out)) := by
  rcases h with ⟨chains, hinv, hfm⟩
  rcases hinv.get key out with ⟨hhit, hmiss⟩
  cases hl : fm.lookup key with
  | some v => exact hhit v ((hfm _ _).mp hl)
  | none => exact hmiss (not_has_of_lookup hfm hl)

lemma Represents.delete (h : Represents s fm) (key : CStr) :
    ∃ s', hmapDelete s key = .ok (if (fm.lookup key).isSome then 1 else 0, s')
      ∧ Represents s' (fm.erase key) := by
  rcases h with ⟨chains, hinv, hfm⟩
  rcases hinv.delete key with ⟨hhit, hmiss⟩
  cases hl : fm.lookup key with
  | some v =>
      rcases hhit ⟨v, (hfm _ _).mp hl⟩ with ⟨s', chains', hrun, hinv', _, _, hiff⟩
      refine ⟨s', by simp [hrun], chains', hinv', fun k w => ?_⟩
      rw [hiff]
      by_cases hk : k = key
      · subst hk
        simp [Finmap.lookup_erase]
      · rw [Finmap.lookup_erase_ne hk, hfm]
        simp [hk]
  | none =>
      have hno := not_has_of_lookup hfm hl
      refine ⟨s, by simp [hmiss hno], chains, hinv, fun k w => ?_⟩
      by_cases hk : k = key
      · subst hk
        simp [Finmap.lookup_erase, hno w]
      · rw [Finmap.lookup_erase_ne hk, hfm]

/-- **One call.** -/
theorem represents_call (M : Malloc Entry) (s : State) (fm : FMap) (c : Call)
    (h : Represents s fm) (hcap : s.map.capacity < 2 ^ 30) :
    Matches Represents (call M s c) (mapCall fm c) := by
  cases c with
  | put key value =>
      rcases h.put M key value hcap with ⟨s', hrun, h'⟩
      exact ⟨s', by simp [call, hrun], h'⟩
  | get key out =>
      have hrun := h.get key out
      simp only [mapCall]
      cases hl : fm.lookup key with
      | some v | none =>
          rw [hl] at hrun
          exact ⟨s, by simp [call, hrun], h⟩
  | delete key =>
      rcases h.delete key with ⟨s', hrun, h'⟩
      exact ⟨s', by simp [call, hrun], h'⟩
  | contains key =>
      have hrun := h.get key 0
      refine ⟨s, ?_, h⟩
      cases hl : fm.lookup key with
      | some v | none =>
          rw [hl] at hrun
          simp [call, hmapContains, hrun]

/-- `count` is the number of live keys. -/
lemma Represents.count_eq (h : Represents s fm) : s.map.count = fm.keys.card := by
  rcases h with ⟨chains, hinv, hfm⟩
  set ks := (entries chains s.map.capacity).map fun x => x.2.1 with hks
  have hkeys : fm.keys = ks.toFinset := by
    ext k
    rw [Finmap.mem_keys, Finmap.mem_iff, List.mem_toFinset, hks, List.mem_map]
    constructor
    · rintro ⟨v, hv⟩
      rcases (hfm k v).mp hv with ⟨i, a, hmem⟩
      exact ⟨_, hinv.mem_entries_iff.mpr ⟨i, hmem⟩, rfl⟩
    · rintro ⟨x, hx, rfl⟩
      rcases hinv.mem_entries_iff.mp hx with ⟨i, hi⟩
      exact ⟨x.2.2, (hfm _ _).mpr ⟨i, x.1, hi⟩⟩
  rw [hkeys, List.toFinset_card_of_nodup hinv.keys_nodup, hinv.count, List.length_map]

end

/-! ## How fast the table can grow -/

/-- What a call can do to `count` and `capacity`. -/
inductive Moves (old new : HashMap) : Prop
  | keeps (hcount : new.count ≤ old.count) (hcap : new.capacity = old.capacity)
  | adds (hcount : new.count = old.count + 1)
      (hcap : new.capacity = if 3 * (old.capacity : ℤ) < 4 * (old.count + 1)
        then old.capacity * 2 else old.capacity)

/-- Every call returns, and only the `put` of a new key can make the table grow. -/
lemma call_moves {M : Malloc Entry} {s : State} {chains : ℕ → List Item} (hinv : Inv s chains)
    (hcap : s.map.capacity < 2 ^ 30) (c : Call) :
    ∃ s' r chains', call M s c = .ok (s', r) ∧ Inv s' chains' ∧ Moves s.map s'.map := by
  have hkeep : Moves s.map s.map := .keeps (le_refl _) rfl
  have hget : ∀ key out, ∃ r, hmapGet s key out = .ok r := by
    intro key out
    by_cases hkey : ∃ v, Has chains key v
    · rcases hkey with ⟨v, hv⟩
      exact ⟨_, (hinv.get key out).1 v hv⟩
    · exact ⟨_, (hinv.get key out).2 fun v hv => hkey ⟨v, hv⟩⟩
  cases c with
  | put key value =>
      rcases hinv.put (M := M) key value (fun _ => doubles_below hcap) with
        ⟨s', chains', hrun, hinv', _, hupd, hnew⟩
      refine ⟨s', .unit, chains', by simp [call, hrun], hinv', ?_⟩
      by_cases hkey : ∃ v, Has chains key v
      · rw [hupd hkey]
        exact hkeep
      · rcases hnew fun v hv => hkey ⟨v, hv⟩ with ⟨hcount, hcap'⟩
        exact .adds hcount hcap'
  | get key out =>
      rcases hget key out with ⟨r, hrun⟩
      exact ⟨s, .got r.1 r.2, chains, by simp [call, hrun], hinv, hkeep⟩
  | delete key =>
      by_cases hkey : ∃ v, Has chains key v
      · rcases (hinv.delete key).1 hkey with ⟨s', chains', hrun, hinv', hcap', hcount, _⟩
        exact ⟨s', .flag 1, chains', by simp [call, hrun], hinv', .keeps (by omega) hcap'⟩
      · have hrun := (hinv.delete key).2 fun v hv => hkey ⟨v, hv⟩
        exact ⟨s, .flag 0, chains, by simp [call, hrun], hinv, hkeep⟩
  | contains key =>
      rcases hget key 0 with ⟨r, hrun⟩
      exact ⟨s, .flag r.1, chains, by simp [call, hmapContains, hrun], hinv, hkeep⟩

/-- One call never shrinks the table, and at most doubles its capacity. -/
lemma capacity_call {M : Malloc Entry} {s s' : State} {chains : ℕ → List Item} {c : Call} {r : Ret}
    (hinv : Inv s chains) (hcap : s.map.capacity < 2 ^ 30) (hcall : call M s c = .ok (s', r)) :
    s.map.capacity ≤ s'.map.capacity ∧ s'.map.capacity ≤ 2 * s.map.capacity
      ∧ ∃ chains', Inv s' chains' := by
  rcases call_moves (M := M) hinv hcap c with ⟨s₁, r₁, chains', hrun, hinv', hmoves⟩
  rw [hrun] at hcall
  cases hcall
  have hbounds : s.map.capacity ≤ s'.map.capacity ∧ s'.map.capacity ≤ 2 * s.map.capacity := by
    cases hmoves with
    | keeps hcount hcap' => omega
    | adds hcount hcap' =>
        rw [hcap']
        split <;> omega
  exact ⟨hbounds.1, hbounds.2, chains', hinv'⟩

/-- A table of capacity `8 * 2 ^ m` stays below `2 ^ 30` for another `26 - m` calls. -/
lemma along_capacity (M : Malloc Entry) : ∀ (cs : List Call) (m : ℕ) (s : State)
    (chains : ℕ → List Item), Inv s chains → s.map.capacity ≤ 8 * 2 ^ m → m + cs.length ≤ 26 →
      Along (fun s => s.map.capacity < 2 ^ 30) (call M) s cs := by
  intro cs
  induction cs with
  | nil =>
      intro m s chains _ hcap hm
      have hpow : 2 ^ m ≤ 2 ^ 26 := Nat.pow_le_pow_right (by omega) (by simpa using hm)
      show s.map.capacity < 2 ^ 30
      omega
  | cons c cs ih =>
      intro m s chains hinv hcap hm
      rw [List.length_cons] at hm
      have hpow : 2 ^ m ≤ 2 ^ 26 := Nat.pow_le_pow_right (by omega) (by omega)
      have hlt : s.map.capacity < 2 ^ 30 := by omega
      refine ⟨hlt, fun s' r hcall => ?_⟩
      rcases capacity_call hinv hlt hcall with ⟨_, hle, chains', hinv'⟩
      exact ih (m + 1) s' chains' hinv' (by rw [Nat.pow_succ]; omega) (by omega)

/-- Short clients keep the promise whatever they do. -/
lemma capacityBelow_of_length (M : Malloc Entry) {cs : List Call} (h : cs.length ≤ 26) :
    CapacityBelow M cs :=
  along_capacity M cs 0 hmapCreate _ inv_create (Nat.le_refl _) (by omega)

/-! ## Whole runs -/

/-- The specification never refuses a call, and remembers of its history exactly the last live
put of each key. -/
theorem mapRun_lookup : ∀ (cs : List Call) (fm : FMap), ∃ fm' rets,
    runCalls mapCall fm cs = .ok (fm', rets)
      ∧ ∀ key, fm'.lookup key = lastPut key cs (fm.lookup key) := by
  intro cs
  induction cs with
  | nil =>
      intro fm
      exact ⟨fm, [], rfl, fun key => rfl⟩
  | cons c cs ih =>
      intro fm
      cases c with
      | put k v =>
          rcases ih (fm.insert k v) with ⟨fm', rets, hrun, hlook⟩
          refine ⟨fm', .unit :: rets, runCalls_cons_ok rfl hrun, fun key => ?_⟩
          rw [hlook, lastPut]
          by_cases hk : k = key
          · subst hk
            rw [Finmap.lookup_insert, if_pos rfl]
          · rw [Finmap.lookup_insert_of_ne fm (Ne.symm hk), if_neg hk]
      | get k out =>
          rcases ih fm with ⟨fm', rets, hrun, hlook⟩
          cases hl : fm.lookup k with
          | some v =>
              exact ⟨fm', .got 1 v :: rets, runCalls_cons_ok (by simp [mapCall, hl]) hrun, hlook⟩
          | none =>
              exact ⟨fm', .got 0 out :: rets, runCalls_cons_ok (by simp [mapCall, hl]) hrun, hlook⟩
      | delete k =>
          rcases ih (fm.erase k) with ⟨fm', rets, hrun, hlook⟩
          refine ⟨fm', _ :: rets, runCalls_cons_ok rfl hrun, fun key => ?_⟩
          rw [hlook, lastPut]
          by_cases hk : k = key
          · subst hk
            rw [Finmap.lookup_erase, if_pos rfl]
          · rw [Finmap.lookup_erase_ne (Ne.symm hk), if_neg hk]
      | contains k =>
          rcases ih fm with ⟨fm', rets, hrun, hlook⟩
          exact ⟨fm', _ :: rets, runCalls_cons_ok rfl hrun, hlook⟩

/-- Every run within the promised capacity ends in a represented state, with the returns of the
finite map. -/
lemma run_represents (M : Malloc Entry) (cs : List Call) (hcap : CapacityBelow M cs) :
    ∃ s fm rets, run M cs = .ok (s, rets) ∧ mapRun cs = .ok (fm, rets) ∧ Represents s fm
      ∧ ∀ key, fm.lookup key = lastPut key cs none := by
  have hmatch := runCalls_matches_along (represents_call M) cs hmapCreate ∅ represents_create hcap
  rcases mapRun_lookup cs ∅ with ⟨fm, rets, hspec, hlook⟩
  rw [hspec] at hmatch
  rcases hmatch with ⟨s, hrun, hrep⟩
  exact ⟨s, fm, rets, hrun, hspec, hrep, fun key => by rw [hlook]; rfl⟩

/-- **The hash table is a finite map**, for every client. -/
theorem hmap_run_refines_map (M : Malloc Entry) (cs : List Call) (hcap : CapacityBelow M cs) :
    ∃ s fm rets, run M cs = .ok (s, rets) ∧ mapRun cs = .ok (fm, rets)
      ∧ s.map.count = fm.keys.card ∧ ∀ key, fm.lookup key = lastPut key cs none := by
  rcases run_represents M cs hcap with ⟨s, fm, rets, hrun, hspec, hrep, hlook⟩
  exact ⟨s, fm, rets, hrun, hspec, hrep.count_eq, hlook⟩

/-- `"a"`, `"i"` and `"q"`, whose hashes are 4, 12 and 4 modulo 16. -/
def keyA : CStr := ⟨[97], by simp⟩

def keyI : CStr := ⟨[105], by simp⟩

def keyQ : CStr := ⟨[113], by simp⟩

/-- Seven keys, the last of which makes the table grow, and then an update, a lookup and a delete.
-/
def growingClient : List Call :=
  [.put keyA 1, .put keyI 2, .put keyQ 3, .put ⟨[98], by simp⟩ 4, .put ⟨[99], by simp⟩ 5,
    .put ⟨[100], by simp⟩ 6, .put ⟨[101], by simp⟩ 7, .put keyA 8, .get keyA 0, .delete keyI,
    .contains keyI]

lemma capacity_growingClient {s : State} {rets : List Ret}
    (hrun : run Malloc.bump growingClient = .ok (s, rets)) : s.map.capacity = 16 := by
  have hcap : (run Malloc.bump growingClient).toOption.map (fun r => r.1.map.capacity)
      = some 16 := by
    decide +kernel
  rw [hrun] at hcap
  exact Option.some.inj hcap

theorem hmap_run_refines_map_growingClient :
    CapacityBelow Malloc.bump growingClient ∧ ∃ s fm rets, run Malloc.bump growingClient = .ok (s, rets)
      ∧ mapRun growingClient = .ok (fm, rets) ∧ s.map.count = fm.keys.card
      ∧ ∀ key, fm.lookup key = lastPut key growingClient none :=
  ⟨capacityBelow_of_length _ (by decide),
    hmap_run_refines_map Malloc.bump growingClient (capacityBelow_of_length _ (by decide))⟩

/-- **The representation invariant**, in every reachable state. -/
theorem hmap_run_invariant (M : Malloc Entry) (cs : List Call) (hcap : CapacityBelow M cs) :
    ∃ s rets chains, run M cs = .ok (s, rets)
      ∧ (∀ i, Chain (s.mem.view entryView) (bucketPtr s.map i) (chains i) none)
      ∧ (∀ i, ∀ x ∈ chains i, i < s.map.capacity ∧ i = (hashDjb2 x.2.1).toNat % s.map.capacity)
      ∧ ((entries chains s.map.capacity).map fun x => x.2.1).Nodup
      ∧ s.map.count = (entries chains s.map.capacity).length
      ∧ (∃ k, s.map.capacity = 8 * 2 ^ k)
      ∧ 4 * s.map.count ≤ 3 * s.map.capacity
      ∧ (overLoaded s.map = true ↔ 3 * (s.map.capacity : ℤ) < 4 * (s.map.count + 1)) := by
  rcases run_represents M cs hcap with ⟨s, fm, rets, hrun, _, ⟨chains, hinv, _⟩, _⟩
  refine ⟨s, rets, chains, hrun, hinv.holds.forest.chain, fun i x hx => ?_, hinv.keys_nodup,
    hinv.count, hinv.shape, hinv.load, hinv.overLoaded_iff⟩
  have hi := hinv.placed i x hx
  constructor
  · rw [← hi]
    exact bucketIndex_lt _ hinv.capacity_pos
  · exact hi.symm

theorem hmap_run_invariant_growingClient :
    CapacityBelow Malloc.bump growingClient ∧ ∃ s rets chains,
      run Malloc.bump growingClient = .ok (s, rets) ∧ s.map.capacity = 16
      ∧ (∀ i, Chain (s.mem.view entryView) (bucketPtr s.map i) (chains i) none)
      ∧ (∀ i, ∀ x ∈ chains i, i < 16 ∧ i = (hashDjb2 x.2.1).toNat % 16)
      ∧ ((entries chains 16).map fun x => x.2.1).Nodup
      ∧ s.map.count = (entries chains 16).length := by
  have hbelow : CapacityBelow Malloc.bump growingClient := capacityBelow_of_length _ (by decide)
  obtain ⟨s, rets, chains, hrun, hchain, hplaced, hkeys, hcount, _⟩ :=
    hmap_run_invariant Malloc.bump growingClient hbelow
  have hcap := capacity_growingClient hrun
  rw [hcap] at hplaced hkeys hcount
  exact ⟨hbelow, s, rets, chains, hrun, hcap, hchain, hplaced, hkeys, hcount⟩

end CExercises.HashTable
