import CExercises.Regex.Def

/-!
# When the scan loop stays inside the text

Every turn of the loop moves the cursor on by at least one, and behind the match it found.  After a
match that takes bytes the cursor is at most at the end of the text.  After an empty match it is
stepped on once more, and if the empty match was at the very end, then behind the terminator.  The
loop of section 4 of the same file looks for the end before it goes on; this one does not.
-/

namespace CExercises.Regex

open Ere

section

variable {text : CStr} {re : Matcher text} {cursor : ℕ} {eflags : ℤ} {m : RegMatch}
  {found : List RegMatch}

/-- The calls the loop makes, as the answers of the matcher determine them. -/
inductive Called (re : Matcher text) : ℕ → ℤ → Prop
  | first : Called re 0 0
  | next {cursor : ℕ} {eflags : ℤ} {m : RegMatch} : Called re cursor eflags →
      re.exec cursor eflags = some m → advance cursor m ≤ text.strlen →
      Called re (advance cursor m) REG_NOTBOL

/-- An empty match at the very end of the text. -/
def EmptyAtEnd (text : CStr) (cursor : ℕ) (m : RegMatch) : Prop :=
  m.so = m.eo ∧ cursor + m.eo = text.strlen

/-- The scan comes to an end, calls the matcher only inside the text, and reports matches that lie
in the text one behind the other. -/
def ScansInside (re : Matcher text) : Prop :=
  ∃ fuel found, scan re fuel = .ok found ∧ (∀ m ∈ found, m.so ≤ m.eo ∧ m.eo ≤ text.strlen)
    ∧ found.Pairwise fun m m' => m.eo ≤ m'.so ∧ m.so < m'.so

/-- What has been found lies before the cursor, in order. -/
structure FoundBefore (found : List RegMatch) (cursor : ℕ) : Prop where
  before : ∀ m ∈ found, m.so ≤ m.eo ∧ m.eo ≤ cursor ∧ m.so < cursor
  ordered : found.Pairwise fun m m' => m.eo ≤ m'.so ∧ m.so < m'.so

lemma Called.le_strlen (h : Called re cursor eflags) : cursor ≤ text.strlen := by
  cases h with
  | first => exact Nat.zero_le _
  | next _ _ hle => exact hle

lemma lt_advance (cursor : ℕ) (h : m.so ≤ m.eo) : cursor < advance cursor m := by
  unfold advance
  split_ifs <;> omega

/-- The cursor leaves the text only after an empty match at its end. -/
lemma advance_le_iff (hcursor : cursor ≤ text.strlen)
    (h : m.so ≤ m.eo ∧ m.eo ≤ text.strlen - cursor) :
    advance cursor m ≤ text.strlen ↔ ¬ EmptyAtEnd text cursor m := by
  unfold advance EmptyAtEnd
  split_ifs <;> omega

lemma FoundBefore.concat (h : FoundBefore found cursor) (hm : m.so ≤ m.eo) :
    FoundBefore (found ++ [⟨cursor + m.so, cursor + m.eo⟩]) (advance cursor m) := by
  have hadvance : cursor + m.eo ≤ advance cursor m ∧ cursor + m.so < advance cursor m := by
    unfold advance
    split_ifs <;> omega
  constructor
  · intro m' hm'
    rcases List.mem_append.mp hm' with hold | hnew
    · have hb := h.before m' hold
      omega
    · rw [List.mem_singleton.mp hnew]
      exact ⟨by simpa using hm, hadvance.1, hadvance.2⟩
  · refine List.pairwise_append.mpr ⟨h.ordered, List.pairwise_singleton _ _, fun m' hm' x hx => ?_⟩
    have hb := h.before m' hm'
    rw [List.mem_singleton.mp hx]
    exact ⟨by simp only; omega, by simp only; omega⟩

/-- One turn of the loop. -/
lemma scanFrom_step {fuel : ℕ} (hcursor : cursor ≤ text.strlen)
    (hm : re.exec cursor eflags = some m) :
    scanFrom re (fuel + 1) cursor eflags found
      = scanFrom re fuel (advance cursor m) REG_NOTBOL
          (found ++ [⟨cursor + m.so, cursor + m.eo⟩]) := by
  simp only [scanFrom, Matcher.call, if_pos hcursor, ok_bind, hm]

/-- The loop ends where the matcher finds nothing. -/
lemma scanFrom_stop {fuel : ℕ} (hcursor : cursor ≤ text.strlen)
    (hm : re.exec cursor eflags = none) :
    scanFrom re (fuel + 1) cursor eflags found = .ok found := by
  simp only [scanFrom, Matcher.call, if_pos hcursor, ok_bind, hm, pure_eq_ok]

/-- A call behind the text is never survived. -/
lemma scanFrom_outside {fuel : ℕ} {r : List RegMatch} (hcursor : ¬ cursor ≤ text.strlen) :
    scanFrom re fuel cursor eflags found ≠ .ok r := by
  cases fuel with
  | zero => simp [scanFrom]
  | succ fuel => simp [scanFrom, Matcher.call, hcursor]

lemma FoundBefore.inside (h : FoundBefore found cursor) (hcursor : cursor ≤ text.strlen) :
    ∀ m ∈ found, m.so ≤ m.eo ∧ m.eo ≤ text.strlen := by
  intro m hm
  have hb := h.before m hm
  omega

/-- **The loop**, by the number of bytes left. -/
lemma scanFrom_spec (hgood : ∀ cursor eflags m, Called re cursor eflags →
    re.exec cursor eflags = some m → ¬ EmptyAtEnd text cursor m) : ∀ (n : ℕ) {cursor : ℕ}
    {eflags : ℤ} {found : List RegMatch}, Called re cursor eflags → text.strlen - cursor < n →
    FoundBefore found cursor →
      ∃ r, scanFrom re n cursor eflags found = .ok r
        ∧ (∀ m ∈ r, m.so ≤ m.eo ∧ m.eo ≤ text.strlen)
        ∧ r.Pairwise fun m m' => m.eo ≤ m'.so ∧ m.so < m'.so := by
  intro n
  induction n with
  | zero =>
      intro cursor eflags found _ hn _
      exact absurd hn (Nat.not_lt_zero _)
  | succ n ih =>
      intro cursor eflags found hcalled hn hfound
      have hcursor := hcalled.le_strlen
      cases hm : re.exec cursor eflags with
      | none =>
          exact ⟨found, scanFrom_stop hcursor hm, hfound.inside hcursor, hfound.ordered⟩
      | some m =>
          have hin := re.inside cursor eflags m hcursor hm
          have hle := (advance_le_iff hcursor hin).mpr (hgood cursor eflags m hcalled hm)
          have hlt := lt_advance cursor hin.1
          rw [scanFrom_step hcursor hm]
          exact ih (.next hcalled hm hle) (by omega) (hfound.concat hin.1)

lemma scansInside_of_called (hgood : ∀ cursor eflags m, Called re cursor eflags →
    re.exec cursor eflags = some m → ¬ EmptyAtEnd text cursor m) : ScansInside re := by
  rcases scanFrom_spec hgood (text.strlen + 1) .first (by omega) ⟨by simp, List.Pairwise.nil⟩ with
    ⟨r, hrun, hin, hordered⟩
  exact ⟨text.strlen + 1, r, hrun, hin, hordered⟩

/-- Where the scan ends well, it ends well from every call on. -/
lemma scanFrom_of_called {fuel : ℕ} {r : List RegMatch} (hscan : scan re fuel = .ok r)
    (h : Called re cursor eflags) :
    ∃ fuel found, scanFrom re fuel cursor eflags found = .ok r := by
  induction h with
  | first => exact ⟨fuel, [], hscan⟩
  | next hcalled hm _ ih =>
      rcases ih with ⟨_ | fuel, found, hrun⟩
      · cases hrun
      · rw [scanFrom_step hcalled.le_strlen hm] at hrun
        exact ⟨fuel, _, hrun⟩

/-- An empty match at the end of the text takes the cursor behind it. -/
lemma not_scansInside (hcalled : Called re cursor eflags) (hm : re.exec cursor eflags = some m)
    (hempty : EmptyAtEnd text cursor m) : ¬ ScansInside re := by
  rintro ⟨fuel, r, hscan, _⟩
  have hcursor := hcalled.le_strlen
  have hout : ¬ advance cursor m ≤ text.strlen := by
    rw [advance_le_iff hcursor (re.inside cursor eflags m hcursor hm)]
    exact not_not_intro hempty
  rcases scanFrom_of_called hscan hcalled with ⟨_ | fuel, found, hrun⟩
  · cases hrun
  · rw [scanFrom_step hcursor hm] at hrun
    exact scanFrom_outside hout hrun

end

/-- **When the scan loop stays inside the text.**  For every text and every matcher the loop ends,
calls the matcher only inside the text and reports matches in increasing order without overlap,
exactly when at none of its calls the answer is an empty match at the very end of the text. -/
theorem scan_inside_iff (text : CStr) (re : Matcher text) :
    ScansInside re ↔ ∀ cursor eflags m, Called re cursor eflags →
      re.exec cursor eflags = some m → ¬ EmptyAtEnd text cursor m := by
  constructor
  · intro h cursor eflags m hcalled hm hempty
    exact not_scansInside hcalled hm hempty h
  · exact scansInside_of_called

/-- `b*` on `a`: an empty match before the `a`, one behind it, and then a call behind the
terminator. -/
theorem scan_leaves_text :
    let text : CStr := ⟨[ch 'a'], by decide +kernel⟩
    let stars : Re := .seq (.rep (.char 'b') 0 none) .empty
    regcomp "b*" = some stars ∧ scan (Matcher.ofRe stars text) 3 = .error .outOfBounds
      ∧ ¬ ScansInside (Matcher.ofRe stars text) := by
  intro text stars
  have hfirst : (Matcher.ofRe stars text).exec 0 0 = some ⟨0, 0⟩ := by decide +kernel
  have hlast : (Matcher.ofRe stars text).exec 1 REG_NOTBOL = some ⟨0, 0⟩ := by decide +kernel
  have hcalled : Called (Matcher.ofRe stars text) 1 REG_NOTBOL :=
    Called.next (m := ⟨0, 0⟩) .first hfirst (by decide)
  refine ⟨by decide +kernel, ?_, not_scansInside hcalled hlast ⟨rfl, rfl⟩⟩
  have hone : advance 0 ⟨0, 0⟩ = 1 := by decide
  rw [scan, scanFrom_step (by decide) hfirst, hone, scanFrom_step (by decide) hlast]
  rfl

/-! ## The demo -/

/-- A pattern that begins with a bracket expression takes at least one byte. -/
lemma takes_one_lt {bol : Option ℕ} {b : Ere.Bracket} {re : Re} {u v : List UInt8}
    (h : Takes bol (.seq (.one b) re) u v) : v.length < u.length := by
  rcases h with ⟨w, ⟨c, _, rfl⟩, hrest⟩
  have hle := hrest.suffix.length_le
  simp only [List.length_cons]
  omega

/-- The pattern of the demo takes a capital letter, so its scan stays inside every text. -/
theorem capitalised_scan_inside (text : CStr) :
    ∃ re, compile capitalisedPattern = .ok re ∧ ScansInside (Matcher.ofRe re text) := by
  have hcomp : regcomp capitalisedPattern = some (.seq (.one ⟨false, [(ch 'A', ch 'Z')]⟩)
      (.seq (.rep (.one ⟨false, [(ch 'a', ch 'z')]⟩) 1 none) .empty)) := by decide +kernel
  refine ⟨_, by rw [compile, hcomp], scansInside_of_called fun cursor eflags m _ hm hempty => ?_⟩
  have hlt := takes_one_lt (regexec_eq_some_iff.mp hm).isMatch.2.2
  rw [hempty.1] at hlt
  exact Nat.lt_irrefl _ hlt

end CExercises.Regex
