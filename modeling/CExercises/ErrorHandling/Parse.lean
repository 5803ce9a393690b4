import CExercises.ErrorHandling.Def

/-!
# What the two parsers accept

Both proofs go through `strtol`: on a numeral and whatever follows it the conversion is known, and
there is no other.

`parse_percent` is exact.  `parse_int` tests `errno` for values outside `long` and then narrows the
`long` to `int` without a test, so a numeral between the two ranges is accepted with a wrong value.
`parseInt_numeral` and `parseInt_other` say what it does on every string, and the condition under
which that is right is read off from them.
-/

namespace CExercises.ErrorHandling

variable {s : CStr} {out v : ℤ} {bs num tail : List UInt8}

/-- Past a proper beginning of the string stands no terminator. -/
lemma headD_eq_zero_iff (h : s.bytes = num ++ tail) : tail.headD 0 = 0 ↔ tail = [] := by
  cases tail with
  | nil => simp
  | cons c tail =>
      have hc : c ≠ 0 := s.nulFree c (by simp [h])
      simpa using hc

lemma charAt_zero_ne (h : s.bytes ≠ []) : ∃ c, s.charAt 0 = .ok c ∧ c ≠ 0 := by
  have hsplit : s.bytes = [] ++ s.bytes := rfl
  exact ⟨_, CStr.charAt_append hsplit, fun h0 => h ((headD_eq_zero_iff hsplit).mp h0)⟩

/-! ## `parse_int` -/

/-- On a numeral: refused outside `long`, narrowed otherwise. -/
lemma parseInt_numeral (h : IsNumeral s.bytes v) (out : ℤ) :
    parseInt (some s) out
      = .ok (if FitsLong v then (0, toInt v, .zero) else (-1, out, .ERANGE)) := by
  rcases charAt_zero_ne h.ne_nil with ⟨c, hfirst, hc⟩
  have hend : s.charAt s.bytes.length = .ok 0 :=
    CStr.charAt_append (show s.bytes = s.bytes ++ [] by simp)
  simp only [parseInt, hfirst, ok_bind, hc, if_false, strtol_of_isNumeral h, errnoAfter, hend]
  by_cases hv : FitsLong v
  · simp [hv, clampLong_eq hv]
  · simp [hv]

/-- On anything else: refused. -/
lemma parseInt_other (h : ¬ ∃ v, IsNumeral s.bytes v) (out : ℤ) :
    ∃ e, parseInt (some s) out = .ok (-1, out, e) := by
  by_cases hnil : s.bytes = []
  · refine ⟨.EINVAL, ?_⟩
    simp [parseInt, CStr.charAt, hnil]
  · rcases charAt_zero_ne hnil with ⟨c, hfirst, hc⟩
    rcases strtol_cases s.bytes with hrun | ⟨num, tail, v, hsplit, hnum, hdigit⟩
    · -- no conversion: `end` points at the first character
      refine ⟨.EINVAL, ?_⟩
      simp [parseInt, hfirst, hc, hrun, errnoAfter]
    · -- trailing garbage
      have htail : tail.headD 0 ≠ 0 := by
        intro h0
        rw [headD_eq_zero_iff hsplit] at h0
        rw [h0, List.append_nil] at hsplit
        exact h ⟨v, hsplit ▸ hnum⟩
      have hend := CStr.charAt_append hsplit
      have hrun := strtol_numeral hnum hdigit
      rw [← hsplit] at hrun
      by_cases hv : FitsLong v
      · exact ⟨.EINVAL, by simpa [parseInt, hfirst, hc, hrun, errnoAfter, hend, hv] using htail⟩
      · exact ⟨.ERANGE, by simp [parseInt, hfirst, hc, hrun, errnoAfter, hv]⟩

/-- The string denotes `v` and `v` is an `int`. -/
def DenotesInt (s : Option CStr) (v : ℤ) : Prop := ∃ t, s = some t ∧ IsNumeral t.bytes v ∧ FitsInt v

/-- `parse_int` succeeds exactly on the strings that denote an `int`, with that `int`, and leaves
`*out` alone otherwise. -/
def ParsesExactly (s : Option CStr) (out : ℤ) : Prop :=
  ∃ ret out' errno, parseInt s out = .ok (ret, out', errno)
    ∧ (∀ v, ret = 0 ∧ out' = v ↔ DenotesInt s v)
    ∧ ((¬ ∃ v, DenotesInt s v) → ret = -1 ∧ out' = out)

lemma denotesInt_unique {s : Option CStr} {v v' : ℤ} (h : DenotesInt s v) (h' : DenotesInt s v') :
    v = v' := by
  rcases h with ⟨t, rfl, hnum, hfits⟩
  rcases h' with ⟨t', ht, hnum', hfits'⟩
  cases ht
  exact hnum.unique hnum' hfits.fitsLong

/-- Refusing is right when the string denotes no `int`. -/
lemma parsesExactly_of_refused {s : Option CStr} {e : Errno}
    (hrun : parseInt s out = .ok (-1, out, e)) (hnone : ¬ ∃ v, DenotesInt s v) :
    ParsesExactly s out := by
  refine ⟨-1, out, e, hrun, fun v => ?_, fun _ => ⟨rfl, rfl⟩⟩
  constructor
  · rintro ⟨hret, _⟩
    exact absurd hret (by decide)
  · exact fun hv => absurd ⟨v, hv⟩ hnone

/-- Accepting is right when the value is an `int`. -/
lemma parsesExactly_of_fitsInt (hnum : IsNumeral s.bytes v) (hv : FitsInt v) (out : ℤ) :
    ParsesExactly (some s) out := by
  have hrun := parseInt_numeral hnum out
  rw [if_pos hv.fitsLong, toInt_eq_self_iff.mpr hv] at hrun
  have hden : DenotesInt (some s) v := ⟨s, rfl, hnum, hv⟩
  refine ⟨0, v, .zero, hrun, fun v' => ?_, fun hnone => absurd ⟨v, hden⟩ hnone⟩
  constructor
  · rintro ⟨_, rfl⟩
    exact hden
  · exact fun hv' => ⟨rfl, denotesInt_unique hden hv'⟩

/-- A `long` that is not an `int` is accepted, and it should not be. -/
lemma not_parsesExactly (hnum : IsNumeral s.bytes v) (hlong : FitsLong v) (hint : ¬ FitsInt v)
    (out : ℤ) : ¬ ParsesExactly (some s) out := by
  rintro ⟨ret, out', e, hrun, hiff, _⟩
  rw [parseInt_numeral hnum, if_pos hlong] at hrun
  cases hrun
  rcases (hiff (toInt v)).mp ⟨rfl, rfl⟩ with ⟨t, ht, hnum', hfits⟩
  cases ht
  have heq := hnum.unique hnum' hlong
  exact hint (heq ▸ hfits)

/-- **`parse_int` is exact except on numerals that fit `long` and not `int`.** -/
theorem parse_int_exact_iff (s : Option CStr) (out : ℤ) :
    ParsesExactly s out
      ↔ ¬ ∃ t v, s = some t ∧ IsNumeral t.bytes v ∧ FitsLong v ∧ ¬ FitsInt v := by
  constructor
  · rintro h ⟨t, v, rfl, hnum, hlong, hint⟩
    exact not_parsesExactly hnum hlong hint out h
  · intro h
    cases s with
    | none =>
        refine parsesExactly_of_refused (e := .EINVAL) rfl ?_
        rintro ⟨v, t, ht, _⟩
        cases ht
    | some t =>
        by_cases hnum : ∃ v, IsNumeral t.bytes v
        · rcases hnum with ⟨v, hnum⟩
          by_cases hlong : FitsLong v
          · by_cases hint : FitsInt v
            · exact parsesExactly_of_fitsInt hnum hint out
            · exact absurd ⟨t, v, rfl, hnum, hlong, hint⟩ h
          · have hrun := parseInt_numeral hnum out
            rw [if_neg hlong] at hrun
            refine parsesExactly_of_refused hrun ?_
            rintro ⟨v', t', ht, hnum', hfits⟩
            cases ht
            exact hlong ((hnum.fitsLong_iff hnum').mpr hfits.fitsLong)
        · rcases parseInt_other hnum out with ⟨e, hrun⟩
          refine parsesExactly_of_refused hrun ?_
          rintro ⟨v, t', ht, hnum', _⟩
          cases ht
          exact hnum ⟨v, hnum'⟩

/-- `"4294967296"` is `2 ^ 32`, which `int` does not hold: `parse_int` returns 0 and stores 0. -/
theorem parse_int_wraps :
    parseInt (some ⟨[52, 50, 57, 52, 57, 54, 55, 50, 57, 54], by simp⟩) 7 = .ok (0, 0, .zero)
    ∧ ¬ ParsesExactly (some ⟨[52, 50, 57, 52, 57, 54, 55, 50, 57, 54], by simp⟩) 7 := by
  have hnum : IsNumeral [52, 50, 57, 52, 57, 54, 55, 50, 57, 54] 4294967296 :=
    ⟨[], [], _, rfl, by simp, Or.inl rfl, by simp, by simp [isDigit], rfl⟩
  exact ⟨rfl, not_parsesExactly (s := ⟨_, by simp⟩) hnum (by decide) (by decide) 7⟩

/-! ## `parse_percent` -/

/-- A numeral and a `%`. -/
def IsPercent (s : CStr) (v : ℤ) : Prop := ∃ num, s.bytes = num ++ [ch '%'] ∧ IsNumeral num v

lemma isDigit_percent : isDigit (ch '%') = false := by decide

/-- On a percentage: the code tells apart the three ranges. -/
lemma parsePercent_percent (h : IsPercent s v) (out : ℤ) (errno : Errno) :
    parsePercent (some s) (some out) errno
      = .ok (if ¬ FitsLong v then (.ERR_PARSE, some out, .ERANGE)
          else if v < 0 ∨ v > 100 then (.ERR_RANGE, some out, .zero)
          else (.OK, some v, .zero)) := by
  rcases h with ⟨num, hbytes, hnum⟩
  have hrun := strtol_numeral hnum (show isDigit ([ch '%'].headD 0) = false from isDigit_percent)
  have hpos : num.length ≠ 0 := fun h0 => hnum.ne_nil (List.length_eq_zero_iff.mp h0)
  have hend : s.charAt num.length = .ok (ch '%') := CStr.charAt_append hbytes
  have hlast : s.charAt (num.length + 1) = .ok 0 := by
    have hnext := CStr.charAt_append (show s.bytes = (num ++ [ch '%']) ++ [] by simp [hbytes])
    rwa [List.length_append] at hnext
  by_cases hv : FitsLong v
  · by_cases hrange : v < 0 ∨ v > 100
    · simp [parsePercent, hbytes, hrun, errnoAfter, hv, hpos, hend, hlast, clampLong_eq hv, hrange]
    · have hint : toInt v = v := toInt_eq_self_iff.mpr (by unfold FitsInt INT_MIN INT_MAX; omega)
      simp [parsePercent, hbytes, hrun, errnoAfter, hv, hpos, hend, hlast, clampLong_eq hv, hrange,
        hint]
  · simp [parsePercent, hbytes, hrun, errnoAfter, hv]

/-- On anything else: a parse error. -/
lemma parsePercent_other {errno : Errno} (h : ¬ ∃ v, IsPercent s v) (out : ℤ) :
    ∃ e, parsePercent (some s) (some out) errno = .ok (.ERR_PARSE, some out, e) := by
  rcases strtol_cases s.bytes with hrun | ⟨num, tail, v, hsplit, hnum, hdigit⟩
  · exact ⟨.zero, by simp [parsePercent, hrun, errnoAfter]⟩
  · have hrun := strtol_numeral hnum hdigit
    rw [← hsplit] at hrun
    have hpos : num.length ≠ 0 := fun h0 => hnum.ne_nil (List.length_eq_zero_iff.mp h0)
    by_cases hv : FitsLong v
    · refine ⟨.zero, ?_⟩
      have hend := CStr.charAt_append hsplit
      cases tail with
      | nil =>
          have hnul : (0 : UInt8) ≠ ch '%' := by decide
          simp [parsePercent, hrun, errnoAfter, hv, hpos, hend, hnul]
      | cons c tail =>
          by_cases hc : c = ch '%'
          · subst hc
            have hsplit' : s.bytes = (num ++ [ch '%']) ++ tail := by simp [hsplit]
            have hlast : ∃ d, s.charAt (num.length + 1) = .ok d ∧ d ≠ 0 := by
              refine ⟨_, by simpa using CStr.charAt_append hsplit', fun h0 => ?_⟩
              have hnil := (headD_eq_zero_iff hsplit').mp (by simpa using h0)
              rw [hnil] at hsplit
              exact h ⟨v, num, hsplit, hnum⟩
            rcases hlast with ⟨d, hlast, hd⟩
            have hend' : s.charAt num.length = .ok (ch '%') := hend
            simp [parsePercent, hrun, errnoAfter, hv, hpos, hend', hlast, hd]
          · have hend' : s.charAt num.length = .ok c := hend
            simp [parsePercent, hrun, errnoAfter, hv, hpos, hend', hc]
    · exact ⟨.ERANGE, by simp [parsePercent, hrun, errnoAfter, hv]⟩

lemma IsPercent.fitsLong_iff {v' : ℤ} (h : IsPercent s v) (h' : IsPercent s v') :
    (FitsLong v ↔ FitsLong v') ∧ (FitsLong v → v = v') := by
  rcases h with ⟨num, hbytes, hnum⟩
  rcases h' with ⟨num', hbytes', hnum'⟩
  rw [hbytes] at hbytes'
  have heq := List.append_cancel_right hbytes'
  subst heq
  exact ⟨hnum.fitsLong_iff hnum', hnum.unique hnum'⟩

lemma fitsLong_of_percent (h : 0 ≤ v ∧ v ≤ 100) : FitsLong v := by
  unfold FitsLong LONG_MIN LONG_MAX
  omega

/-- **`parse_percent` classifies every string**: `OK` with the value for a percentage from 0 to 100,
`ERR_RANGE` for one outside that is a `long`, `ERR_PARSE` for everything else; and `*out` is written
only with `OK`. -/
theorem parse_percent_classifies (s : CStr) (out : ℤ) (errno : Errno) :
    ∃ code out' errno', parsePercent (some s) (some out) errno = .ok (code, some out', errno')
      ∧ (∀ v, code = .OK ∧ out' = v ↔ IsPercent s v ∧ 0 ≤ v ∧ v ≤ 100)
      ∧ (code = .ERR_RANGE ↔ ∃ v, IsPercent s v ∧ FitsLong v ∧ ¬ (0 ≤ v ∧ v ≤ 100))
      ∧ (code = .ERR_PARSE ↔ ¬ ∃ v, IsPercent s v ∧ FitsLong v)
      ∧ (code ≠ .OK → out' = out) := by
  by_cases hshape : ∃ v, IsPercent s v ∧ FitsLong v
  · rcases hshape with ⟨v, hp, hlong⟩
    -- a string has one value
    have hval : ∀ v', IsPercent s v' → v' = v := fun v' hp' => ((hp.fitsLong_iff hp').2 hlong).symm
    have hrun := parsePercent_percent hp out errno
    rw [if_neg (not_not.mpr hlong)] at hrun
    by_cases hrange : v < 0 ∨ v > 100
    · rw [if_pos hrange] at hrun
      refine ⟨_, _, _, hrun, fun v' => ?_, ?_, ?_, fun _ => rfl⟩
      · refine iff_of_false (by simp) ?_
        rintro ⟨hp', hlo, hhi⟩
        rw [hval v' hp'] at hlo hhi
        omega
      · exact iff_of_true rfl ⟨v, hp, hlong, by omega⟩
      · exact iff_of_false (by simp) (not_not.mpr ⟨v, hp, hlong⟩)
    · rw [if_neg hrange] at hrun
      refine ⟨_, _, _, hrun, fun v' => ?_, ?_, ?_, fun hne => absurd rfl hne⟩
      · constructor
        · rintro ⟨_, rfl⟩
          exact ⟨hp, by omega, by omega⟩
        · rintro ⟨hp', _⟩
          exact ⟨rfl, (hval v' hp').symm⟩
      · refine iff_of_false (by simp) ?_
        rintro ⟨v', hp', _, hout⟩
        rw [hval v' hp'] at hout
        omega
      · exact iff_of_false (by simp) (not_not.mpr ⟨v, hp, hlong⟩)
  · have hrun : ∃ e, parsePercent (some s) (some out) errno = .ok (.ERR_PARSE, some out, e) := by
      by_cases hp : ∃ v, IsPercent s v
      · rcases hp with ⟨v, hp⟩
        refine ⟨.ERANGE, ?_⟩
        rw [parsePercent_percent hp, if_pos fun hlong => hshape ⟨v, hp, hlong⟩]
      · exact parsePercent_other hp out
    rcases hrun with ⟨e, hrun⟩
    refine ⟨_, _, _, hrun, fun v => ?_, ?_, iff_of_true rfl hshape, fun _ => rfl⟩
    · refine iff_of_false (by simp) ?_
      rintro ⟨hp, hin⟩
      exact hshape ⟨v, hp, fitsLong_of_percent hin⟩
    · refine iff_of_false (by simp) ?_
      rintro ⟨v, hp, hlong, _⟩
      exact hshape ⟨v, hp, hlong⟩

end CExercises.ErrorHandling
