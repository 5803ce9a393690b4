import CExercises.Core.CInt
import CExercises.HashTable.Invariant
import Mathlib.Data.Finset.Card

/-!
# The word-frequency counter

The client at the end of `main` in `hash_table.c`.  It reads a count into a variable that holds `0`
and puts it back plus one, so a word that is not yet there relies on `hmap_get` leaving the
variable alone.  The invariant says which words the table holds and with which counts after any
prefix of the list; the growth of the table does not show in it.
-/

namespace CExercises.HashTable

/-- One turn of the loop: `count = 0; hmap_get(freq, w, &count); hmap_put(freq, w, count + 1)`. -/
def countWord (M : Malloc Entry) (freq : State) (w : CStr) : Except Stop State := do
  let (_, count) ← hmapGet freq w 0
  hmapPut M freq w (← intAdd count 1)

/-- The loop over the words, on an empty map. -/
def countWords (M : Malloc Entry) (words : List CStr) : Except Stop State :=
  words.foldlM (countWord M) hmapCreate

/-- The table holds the counts of the words seen so far. -/
def Counted (s : State) (seen : List CStr) : Prop :=
  ∃ chains, Inv s chains ∧ (∀ k v, Has chains k v ↔ k ∈ seen ∧ v = seen.count k)
    ∧ s.map.count = seen.toFinset.card

section

variable {M : Malloc Entry} {s : State} {seen : List CStr}

lemma counted_create : Counted hmapCreate [] := by
  refine ⟨_, inv_create, fun k v => ?_, rfl⟩
  simp [Has]

/-- The counter reads back the number of times it saw a word, which is `0` for a new one. -/
lemma Counted.get (h : Counted s seen) (w : CStr) (out : ℤ) :
    hmapGet s w out = .ok (if w ∈ seen then (1, (seen.count w : ℤ)) else (0, out)) := by
  rcases h with ⟨chains, hinv, hhas, -⟩
  rcases hinv.get w out with ⟨hhit, hmiss⟩
  split_ifs with hw
  · exact hhit _ ((hhas w _).mpr ⟨hw, rfl⟩)
  · exact hmiss fun v hv => hw ((hhas w v).mp hv).1

lemma Counted.get_zero (h : Counted s seen) (w : CStr) :
    ∃ hit, hmapGet s w 0 = .ok (hit, (seen.count w : ℤ)) := by
  rw [h.get w 0]
  split_ifs with hw
  · exact ⟨1, rfl⟩
  · refine ⟨0, ?_⟩
    rw [List.count_eq_zero_of_not_mem hw]
    rfl

/-- A put never finds the table too large to double while fewer than `2 ^ 29` words were seen. -/
lemma Counted.doubles (h : Counted s seen) (hlen : seen.length < 2 ^ 29)
    (hload : 3 * (s.map.capacity : ℤ) < 4 * (s.map.count + 1)) :
    s.map.capacity * 2 ≤ intMax := by
  rcases h with ⟨-, -, -, hcount⟩
  have hle := List.toFinset_card_le seen
  unfold intMax
  omega

lemma count_fits {w : CStr} (hlen : seen.length < 2 ^ 29) :
    intAdd (seen.count w : ℤ) 1 = .ok (seen.count w + 1 : ℕ) := by
  have hle := List.count_le_length (a := w) (l := seen)
  have hmax : ((seen.count w + 1 : ℕ) : ℤ) ≤ INT_MAX := by
    unfold INT_MAX
    omega
  exact_mod_cast intAdd_natCast hmax

/-- **One word.** -/
lemma Counted.step (h : Counted s seen) (w : CStr) (hlen : seen.length < 2 ^ 29) :
    ∃ s', countWord M s w = .ok s' ∧ Counted s' (seen ++ [w]) := by
  rcases h.get_zero w with ⟨hit, hget⟩
  have hfits := count_fits (w := w) hlen
  have hdoubles := h.doubles hlen
  rcases h with ⟨chains, hinv, hhas, hcount⟩
  rcases hinv.put (M := M) w (seen.count w + 1 : ℕ) hdoubles with
    ⟨s', chains', hput, hinv', hiff, hold, hnew⟩
  refine ⟨s', ?_, chains', hinv', fun k v => ?_, ?_⟩
  · rw [countWord, hget, ok_bind]
    change (intAdd _ 1 >>= fun count => hmapPut M s w count) = _
    rw [hfits, ok_bind, hput]
  · rw [hiff]
    by_cases hk : k = w
    · subst hk
      simp [List.count_append]
    · have hne : List.count k [w] = 0 := List.count_eq_zero_of_not_mem (by simpa using hk)
      simp [hk, hhas, List.count_append, hne]
  · have hset : (seen ++ [w]).toFinset = insert w seen.toFinset := by
      ext k
      simp
    rw [hset]
    by_cases hw : w ∈ seen
    · rw [hold ⟨_, (hhas w _).mpr ⟨hw, rfl⟩⟩, hcount,
        Finset.insert_eq_of_mem (List.mem_toFinset.mpr hw)]
    · have hmiss : ∀ v, ¬ Has chains w v := fun v hv => hw ((hhas w v).mp hv).1
      rw [(hnew hmiss).1, hcount, Finset.card_insert_of_notMem (by simpa using hw), Nat.cast_succ]

/-- **The loop**, from any state that holds the counts of the words before. -/
lemma Counted.run (M : Malloc Entry) : ∀ (words : List CStr) {s : State} {seen : List CStr},
    Counted s seen → (seen ++ words).length < 2 ^ 29 →
      ∃ s', words.foldlM (countWord M) s = .ok s' ∧ Counted s' (seen ++ words)
  | [], s, seen, h, _ => ⟨s, rfl, by simpa using h⟩
  | w :: words, s, seen, h, hlen => by
      have hseen : seen.length < 2 ^ 29 := by
        simp only [List.length_append, List.length_cons] at hlen
        omega
      rcases h.step (M := M) w hseen with ⟨s₁, hstep, h₁⟩
      rcases Counted.run M words h₁ (by simpa using hlen) with ⟨s', hrun, h'⟩
      refine ⟨s', ?_, by simpa using h'⟩
      simp [List.foldlM_cons, hstep, hrun]

end

/-- **The word counter counts.**  For fewer than `2 ^ 29` words the loop runs to its end; afterwards
a lookup hits exactly the words of the list, each with its number of occurrences, and `count` is
the number of different words. -/
theorem word_counter_counts (M : Malloc Entry) (words : List CStr) (hlen : words.length < 2 ^ 29) :
    ∃ freq, countWords M words = .ok freq
      ∧ (∀ w ∈ words, ∀ out, hmapGet freq w out = .ok (1, (words.count w : ℤ)))
      ∧ (∀ w, w ∉ words → ∀ out, hmapGet freq w out = .ok (0, out))
      ∧ freq.map.count = words.toFinset.card := by
  rcases Counted.run M words counted_create (by simpa using hlen) with ⟨freq, hrun, h⟩
  rw [List.nil_append] at h
  refine ⟨freq, hrun, ?_, ?_, ?_⟩
  · intro w hw out
    rw [h.get, if_pos hw]
  · intro w hw out
    rw [h.get, if_neg hw]
  · rcases h with ⟨-, -, -, hcount⟩
    exact hcount

/-- The counter on `the fox the`. -/
theorem word_counter_counts_the_fox_the :
    let the : CStr := ⟨[ch 't', ch 'h', ch 'e'], by decide +kernel⟩
    let fox : CStr := ⟨[ch 'f', ch 'o', ch 'x'], by decide +kernel⟩
    ∃ freq, countWords Malloc.bump [the, fox, the] = .ok freq
      ∧ hmapGet freq the 0 = .ok (1, 2) ∧ freq.map.count = 2 := by
  intro the fox
  rcases word_counter_counts Malloc.bump [the, fox, the] (by decide) with
    ⟨freq, hrun, hhit, -, hcount⟩
  exact ⟨freq, hrun, hhit the (by decide) 0, hcount⟩

end CExercises.HashTable
