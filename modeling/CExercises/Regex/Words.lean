import CExercises.Regex.Ipv4
import CExercises.Regex.Scan

/-!
# The scan of the demo finds every word

A capitalised word is a capital letter and at least one small letter, up to the first byte that is
not a small letter.  Two of them never overlap, because the only capital letter of a word is its
first; so the scan, which goes on behind each match, skips no word, and what it reports is the list
of all words of the text in order.

`regexec` reports the leftmost longest match.  Leftmost means that no word begins before it, and
longest that it does not end in the middle of one.  In a text that `regexec` can measure, the length
of a match is a precision that `printf` can take.
-/

namespace CExercises.Regex

open Ere

/-- `[A-Z][a-z]+`. -/
def capitalised : Re :=
  .seq (inRange 'A' 'Z') (.seq (.rep (inRange 'a' 'z') 1 none) .empty)

lemma compile_capitalised : compile capitalisedPattern = .ok capitalised := by
  have hcomp : regcomp capitalisedPattern = some capitalised := by decide +kernel
  rw [compile, hcomp]

def IsCapital (c : UInt8) : Prop := (ch 'A').toNat ≤ c.toNat ∧ c.toNat ≤ (ch 'Z').toNat

def IsSmall (c : UInt8) : Prop := (ch 'a').toNat ≤ c.toNat ∧ c.toNat ≤ (ch 'z').toNat

/-- A word of `n` bytes stands at the front. -/
def StartsWord (u : List UInt8) (n : ℕ) : Prop :=
  ∃ c w v, u = c :: (w ++ v) ∧ IsCapital c ∧ w ≠ [] ∧ (∀ b ∈ w, IsSmall b)
    ∧ (∀ b ∈ v.head?, ¬ IsSmall b) ∧ n = w.length + 1

/-- The bytes of the text from `so` to `eo` are a word. -/
def IsWord (text : List UInt8) (m : RegMatch) : Prop :=
  ∃ n, StartsWord (text.drop m.so) n ∧ m.eo = m.so + n

section

variable {bol : Option ℕ} {u v : List UInt8} {n : ℕ} {text : CStr}

lemma not_small_of_capital {c : UInt8} (h : IsCapital c) : ¬ IsSmall c := by
  have hZ := h.2
  rintro ⟨ha, _⟩
  simp only [show (ch 'Z').toNat = 90 from rfl, show (ch 'a').toNat = 97 from rfl] at hZ ha
  omega

/-! ## What the pattern takes -/

lemma takes_capitalised : Takes bol capitalised u v ↔
    ∃ c w, u = c :: (w ++ v) ∧ IsCapital c ∧ w ≠ [] ∧ ∀ b ∈ w, IsSmall b := by
  constructor
  · rintro ⟨_, hfirst, hrest⟩
    rw [takes_seq_empty] at hrest
    rcases takes_inRange.mp hfirst with ⟨c, hc, rfl⟩
    rcases hrest with ⟨n, hn, _, hiter⟩
    rcases iter_one.mp hiter with ⟨w, rfl, hw, rfl⟩
    exact ⟨c, w, rfl, hc, List.ne_nil_of_length_pos hn, fun b hb => has_range.mp (hw b hb)⟩
  · rintro ⟨c, w, rfl, hc, hne, hw⟩
    refine ⟨w ++ v, takes_inRange.mpr ⟨c, hc, rfl⟩, takes_seq_empty.mpr ⟨w.length, ?_, by simp, ?_⟩⟩
    · exact List.length_pos_of_ne_nil hne
    · exact iter_one.mpr ⟨w, rfl, fun b hb => has_range.mpr (hw b hb), rfl⟩

/-! ## Words -/

/-- A word has one length. -/
lemma StartsWord.unique {n' : ℕ} (h : StartsWord u n) (h' : StartsWord u n') : n = n' := by
  rcases h with ⟨c, w, v, rfl, _, _, hw, hv, rfl⟩
  rcases h' with ⟨c', w', v', heq, _, _, hw', hv', rfl⟩
  obtain ⟨_, hrest⟩ := List.cons.inj heq
  -- the longer of the two would begin with a small letter where the other ends
  have hle : ∀ {w v w' v' : List UInt8}, w ++ v = w' ++ v' → (∀ b ∈ w', IsSmall b) →
      (∀ b ∈ v.head?, ¬ IsSmall b) → w'.length ≤ w.length := by
    intro w v w' v' heq hw' hv
    by_contra hlt
    rcases List.append_eq_append_iff.mp heq with ⟨x, rfl, rfl⟩ | ⟨x, rfl, rfl⟩
    · rcases x with _ | ⟨b, x⟩
      · simp at hlt
      · exact hv b (by simp) (hw' b (by simp))
    · simp at hlt
  rw [Nat.le_antisymm (hle hrest.symm hw hv') (hle hrest hw' hv)]

/-- Inside a word no other begins. -/
lemma StartsWord.not_inside {i n' : ℕ} (h : StartsWord u n) (hpos : 0 < i) (hi : i < n) :
    ¬ StartsWord (u.drop i) n' := by
  rcases h with ⟨c, w, v, rfl, _, _, hw, _, rfl⟩
  rintro ⟨c', w', v', heq, hcap, _⟩
  rcases i with _ | i
  · cases hpos
  · rw [List.drop_succ_cons, List.drop_append_of_le_length (by omega)] at heq
    have hcons : w.drop i ≠ [] := by
      intro hnil
      rw [List.drop_eq_nil_iff] at hnil
      omega
    rcases hdrop : w.drop i with _ | ⟨b, x⟩
    · exact hcons hdrop
    · rw [hdrop] at heq
      obtain ⟨rfl, _⟩ := List.cons.inj heq
      refine not_small_of_capital hcap (hw b (List.mem_of_mem_drop (i := i) ?_))
      rw [hdrop]
      exact List.mem_cons_self

lemma StartsWord.le_length (h : StartsWord u n) : n ≤ u.length := by
  rcases h with ⟨c, w, v, rfl, _, _, _, _, rfl⟩
  simp

/-- Where a word begins, the pattern takes it. -/
lemma StartsWord.takes (h : StartsWord u n) : Takes bol capitalised u (u.drop n) := by
  rcases h with ⟨c, w, v, rfl, hc, hne, hw, _, rfl⟩
  refine takes_capitalised.mpr ⟨c, w, ?_, hc, hne, hw⟩
  rw [List.drop_succ_cons, List.drop_left]

/-! ## One call -/

/-- **A match is the first word.** -/
lemma isWord_of_regexec {notbol : Bool} {m : RegMatch} (h : regexec capitalised u notbol = some m) :
    IsWord u m ∧ ∀ m', IsWord u m' → m.so ≤ m'.so := by
  rcases regexec_eq_some_iff.mp h with ⟨⟨hle, heo, htakes⟩, hleft, hlong⟩
  rcases takes_capitalised.mp htakes with ⟨c, w, hu, hc, hne, hw⟩
  have hlen : u.length - m.so = w.length + 1 + (u.length - m.eo) := by
    rw [← List.length_drop, hu]
    simp only [List.length_cons, List.length_append, List.length_drop]
    omega
  have hso : m.so + (w.length + 1) = m.eo := by omega
  refine ⟨⟨w.length + 1, ⟨c, w, u.drop m.eo, hu, hc, hne, hw, ?_, rfl⟩, hso.symm⟩, ?_⟩
  · -- with one more small letter the match would be longer
    intro b hb hsmall
    rcases hv : u.drop m.eo with _ | ⟨b', v⟩
    · simp [hv] at hb
    · rw [hv] at hb hu
      obtain rfl : b' = b := by simpa using hb
      have hdrop : u.drop (m.eo + 1) = v := by
        rw [← List.drop_drop, hv]
        rfl
      have hshort : m.eo < u.length := by
        by_contra hge
        rw [List.drop_eq_nil_of_le (by omega)] at hv
        cases hv
      refine absurd (hlong (m.eo + 1) ⟨by omega, hshort, ?_⟩) (by omega)
      rw [hdrop]
      refine takes_capitalised.mpr ⟨c, w ++ [b'], by simpa using hu, hc, by simp, ?_⟩
      intro x hx
      rcases List.mem_append.mp hx with hx | hx
      · exact hw x hx
      · rw [List.mem_singleton.mp hx]
        exact hsmall
  · rintro m' ⟨n, hword, hn⟩
    have hbound := hword.le_length
    rw [List.length_drop] at hbound
    have hpos : 0 < n := by
      rcases hword with ⟨_, _, _, _, _, _, _, _, rfl⟩
      exact Nat.succ_pos _
    refine hleft m'.so (m'.so + n) ⟨by omega, by omega, ?_⟩
    have htake := @StartsWord.takes (bolAt notbol u) _ _ hword
    rwa [List.drop_drop] at htake

/-- Without a match there is no word. -/
lemma not_isWord_of_regexec {notbol : Bool} (h : regexec capitalised u notbol = none)
    (m : RegMatch) : ¬ IsWord u m := by
  rintro ⟨n, hword, _⟩
  have hbound := hword.le_length
  rw [List.length_drop] at hbound
  have hpos : 0 < n := by
    rcases hword with ⟨_, _, _, _, _, _, _, _, rfl⟩
    exact Nat.succ_pos _
  have htake := @StartsWord.takes (bolAt notbol u) _ _ hword
  rw [List.drop_drop] at htake
  exact regexec_eq_none h m.so (m.so + n) ⟨by omega, by omega, htake⟩

/-! ## The whole scan -/

/-- A word of what is left is a word of the text. -/
lemma isWord_drop {cursor : ℕ} {m : RegMatch} :
    IsWord (u.drop cursor) m ↔ IsWord u ⟨cursor + m.so, cursor + m.eo⟩ := by
  simp only [IsWord, List.drop_drop, Nat.add_assoc, Nat.add_left_cancel_iff]

lemma isWord_after {cursor : ℕ} {m : RegMatch} (hle : cursor ≤ m.so) (h : IsWord u m) :
    IsWord (u.drop cursor) ⟨m.so - cursor, m.eo - cursor⟩ := by
  have heo : m.so ≤ m.eo := by
    rcases h with ⟨n, _, hn⟩
    omega
  rw [isWord_drop, Nat.add_sub_cancel' hle, Nat.add_sub_cancel' (hle.trans heo)]
  exact h

/-- Two words that begin before the end of the first are the same. -/
lemma IsWord.eq_of_lt {m m' : RegMatch} (h : IsWord u m) (h' : IsWord u m') (hle : m.so ≤ m'.so)
    (hlt : m'.so < m.eo) : m' = m := by
  rcases h with ⟨n, hn, heo⟩
  rcases h' with ⟨n', hn', heo'⟩
  by_cases hso : m'.so = m.so
  · rw [hso] at hn' heo'
    obtain rfl := hn.unique hn'
    cases m
    cases m'
    simp_all
  · refine absurd ?_ (@StartsWord.not_inside _ _ (m'.so - m.so) n' hn (by omega) (by omega))
    rwa [List.drop_drop, Nat.add_sub_cancel' hle]

/-- **The loop.**  From a cursor on it finds all words that begin there or later. -/
lemma scanFrom_words : ∀ (fuel : ℕ) {cursor : ℕ} (eflags : ℤ) (found : List RegMatch),
    cursor ≤ text.strlen → text.strlen - cursor < fuel →
    ∃ later, scanFrom (Matcher.ofRe capitalised text) fuel cursor eflags found
        = .ok (found ++ later)
      ∧ later.Pairwise (fun m m' => m.so < m'.so)
      ∧ ∀ m, m ∈ later ↔ cursor ≤ m.so ∧ IsWord text.bytes m := by
  intro fuel
  induction fuel with
  | zero =>
      intro cursor eflags found _ hfuel
      exact absurd hfuel (Nat.not_lt_zero _)
  | succ fuel ih =>
      intro cursor eflags found hcursor hfuel
      cases hm : (Matcher.ofRe capitalised text).exec cursor eflags with
      | none =>
          refine ⟨[], ?_, List.Pairwise.nil, fun m => ?_⟩
          · rw [scanFrom_stop hcursor hm, List.append_nil]
          · simp only [List.not_mem_nil, false_iff, not_and]
            intro hle hword
            exact not_isWord_of_regexec hm _ (isWord_after hle hword)
      | some m =>
          obtain ⟨hword, hfirst⟩ := isWord_of_regexec hm
          have hin := (Matcher.ofRe capitalised text).inside cursor eflags m hcursor hm
          have hlt : m.so < m.eo := by
            rcases hword with ⟨n, ⟨_, _, _, _, _, _, _, _, rfl⟩, hn⟩
            omega
          have hadv : advance cursor m = cursor + m.eo := if_neg (by omega)
          have hword' := isWord_drop.mp hword
          rw [scanFrom_step hcursor hm, hadv]
          obtain ⟨later, hrun, hsorted, hlater⟩ := @ih (cursor + m.eo) REG_NOTBOL
            (found ++ [⟨cursor + m.so, cursor + m.eo⟩]) (by omega) (by omega)
          refine ⟨⟨cursor + m.so, cursor + m.eo⟩ :: later, by simpa using hrun, ?_, fun x => ?_⟩
          · refine List.pairwise_cons.mpr ⟨fun x hx => ?_, hsorted⟩
            have hxso := ((hlater x).mp hx).1
            simp only
            omega
          · rw [List.mem_cons, hlater]
            constructor
            · rintro (rfl | ⟨hle, hx⟩)
              · exact ⟨Nat.le_add_right _ _, hword'⟩
              · exact ⟨by omega, hx⟩
            · rintro ⟨hle, hx⟩
              by_cases hbehind : cursor + m.eo ≤ x.so
              · exact Or.inr ⟨hbehind, hx⟩
              · -- the first word is the only one that begins before its end
                have hxfirst := hfirst _ (isWord_after hle hx)
                simp only at hxfirst
                exact Or.inl (hword'.eq_of_lt hx (by simp only; omega) (by simp only; omega))

/-- The bytes of a word, and no others, are printed. -/
lemma IsWord.printed {m : RegMatch} (h : IsWord text.bytes m) (hs : Measurable text) :
    printMatch text m = (text.bytes.drop m.so).take (m.eo - m.so) := by
  rcases h with ⟨n, hword, heo⟩
  have hle := hword.le_length
  rw [List.length_drop] at hle
  have hmax : ((m.eo - m.so : ℕ) : ℤ) ≤ INT_MAX := by
    unfold Measurable CStr.strlen at hs
    omega
  have hprecision : toInt ((m.eo : ℤ) - m.so) = (m.eo - m.so : ℕ) := by
    rw [← Int.ofNat_sub (by omega)]
    exact toInt_eq_self_iff.mpr (fitsInt_natCast hmax)
  rw [printMatch, hprecision, if_neg (by omega), Int.toNat_natCast]

/-- **The scan finds every word** of a text that it can measure, and nothing else, in order, and
prints what it has found. -/
theorem scan_finds_words (text : CStr) (hs : Measurable text) :
    ∃ re fuel found, compile capitalisedPattern = .ok re
      ∧ scan (Matcher.ofRe re text) fuel = .ok found
      ∧ found.Pairwise (fun m m' => m.so < m'.so) ∧ (∀ m, m ∈ found ↔ IsWord text.bytes m)
      ∧ ∀ m ∈ found, printMatch text m = (text.bytes.drop m.so).take (m.eo - m.so) := by
  obtain ⟨found, hrun, hsorted, hlater⟩ :=
    @scanFrom_words text (text.strlen + 1) 0 0 [] (Nat.zero_le _) (Nat.lt_succ_self _)
  have hfound : ∀ m, m ∈ found ↔ IsWord text.bytes m := by
    intro m
    rw [hlater]
    exact and_iff_right (Nat.zero_le _)
  exact ⟨capitalised, text.strlen + 1, found, compile_capitalised, hrun, hsorted, hfound,
    fun m hm => ((hfound m).mp hm).printed hs⟩

end

/-- `"The Quick"`. -/
def theQuick : CStr := ⟨[84, 104, 101, 32, 81, 117, 105, 99, 107], by decide +kernel⟩

/-- The second word. -/
theorem scan_finds_words_quick :
    ∃ re fuel found, compile capitalisedPattern = .ok re
      ∧ scan (Matcher.ofRe re theQuick) fuel = .ok found
      ∧ found.Pairwise (fun m m' => m.so < m'.so) ∧ (∀ m, m ∈ found ↔ IsWord theQuick.bytes m)
      ∧ ⟨4, 9⟩ ∈ found ∧ printMatch theQuick ⟨4, 9⟩ = [81, 117, 105, 99, 107] := by
  have hs : Measurable theQuick := by
    simp only [Measurable, theQuick, CStr.strlen, List.length_cons, List.length_nil, INT_MAX]
    omega
  have hquick : IsWord theQuick.bytes ⟨4, 9⟩ :=
    ⟨5, ⟨81, [117, 105, 99, 107], [], rfl, by unfold IsCapital; decide +kernel, by simp,
      by unfold IsSmall; decide +kernel, by simp, rfl⟩, rfl⟩
  obtain ⟨re, fuel, found, hcomp, hrun, hsorted, hfound, hprinted⟩ := scan_finds_words theQuick hs
  have hmem := (hfound _).mpr hquick
  exact ⟨re, fuel, found, hcomp, hrun, hsorted, hfound, hmem, hprinted _ hmem⟩

end CExercises.Regex
