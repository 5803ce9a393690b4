import CExercises.Core.CInt
import CExercises.Core.CString
import Mathlib.Data.List.TakeWhile

/-!
# `strtol` in base ten

`strtol` skips white space, reads an optional sign and as many digits as there are, and reports
where it stopped.  Without a digit there is no conversion and it stops where it started.  A value
outside `long` is replaced by the nearest `long`, and `errno` becomes `ERANGE`; `errno` is left
alone otherwise.

The specification is a grammar: `IsNumeral bs v` says that all of `bs` is white space, sign and
digits and denotes `v`.  `strtol_numeral` and `strtol_cases` are the two things a caller needs: what
happens on a numeral and whatever follows it, and that there is no other kind of conversion.
-/

namespace CExercises

/-- `isspace` in the C locale: the blank, and the characters from `\t` to `\r`. -/
def isSpace (c : UInt8) : Bool := c.toNat = 32 ∨ (9 ≤ c.toNat ∧ c.toNat ≤ 13)

/-- `isdigit`: the characters from `0` to `9`. -/
def isDigit (c : UInt8) : Bool := 48 ≤ c.toNat ∧ c.toNat ≤ 57

/-- The number a string of digits denotes. -/
def decimalValue (ds : List UInt8) : ℕ := ds.foldl (fun v d => 10 * v + (d.toNat - 48)) 0

/-- `[ws][sign]digits`, denoting `v`. -/
def IsNumeral (bs : List UInt8) (v : ℤ) : Prop :=
  ∃ w g ds, bs = w ++ (g ++ ds) ∧ (∀ c ∈ w, isSpace c = true)
    ∧ (g = [] ∨ g = [ch '+'] ∨ g = [ch '-']) ∧ ds ≠ [] ∧ (∀ d ∈ ds, isDigit d = true)
    ∧ v = if g = [ch '-'] then -(decimalValue ds : ℤ) else decimalValue ds

/-! ## The function -/

/-- What `strtol` returns, where `*endptr` points as an offset into the string, and whether `errno`
was set to `ERANGE`. -/
structure StrtolResult where
  value : ℤ
  stop : ℕ
  erange : Bool

/-- A sign, and what follows it. -/
def splitSign : List UInt8 → Bool × List UInt8
  | [] => (false, [])
  | c :: u => if c = ch '-' then (true, u) else if c = ch '+' then (false, u) else (false, c :: u)

/-- The nearest `long`. -/
def clampLong (v : ℤ) : ℤ := if v < LONG_MIN then LONG_MIN else if v > LONG_MAX then LONG_MAX else v

/-- `strtol(s, &end, 10)`. -/
def strtol (bs : List UInt8) : StrtolResult :=
  let (negative, u) := splitSign (bs.dropWhile isSpace)
  let ds := u.takeWhile isDigit
  if ds = [] then ⟨0, 0, false⟩
  else
    let v : ℤ := if negative then -(decimalValue ds : ℤ) else decimalValue ds
    ⟨clampLong v, bs.length - (u.dropWhile isDigit).length, !decide (FitsLong v)⟩

lemma clampLong_eq {v : ℤ} (h : FitsLong v) : clampLong v = v := by
  unfold clampLong
  rw [if_neg (Int.not_lt.mpr h.1), if_neg (Int.not_lt.mpr h.2)]

/-! ## What it converts -/

lemma not_isSpace_of_isDigit {c : UInt8} (h : isDigit c = true) : isSpace c = false := by
  simp only [isDigit, isSpace, decide_eq_true_eq, decide_eq_false_iff_not] at h ⊢
  omega

lemma isDigit_zero : isDigit 0 = false := by decide

/-- A sign or a digit ends the white space. -/
lemma dropWhile_isSpace {w g ds tail : List UInt8} (hw : ∀ c ∈ w, isSpace c = true)
    (hg : g = [] ∨ g = [ch '+'] ∨ g = [ch '-']) (hne : ds ≠ []) (hds : ∀ d ∈ ds, isDigit d = true) :
    (w ++ (g ++ (ds ++ tail))).dropWhile isSpace = g ++ (ds ++ tail) := by
  rw [List.dropWhile_append_of_pos hw]
  rcases hg with rfl | rfl | rfl
  · cases ds with
    | nil => exact absurd rfl hne
    | cons d ds => simp [not_isSpace_of_isDigit (hds d List.mem_cons_self)]
  · rfl
  · rfl

/-- Digits are not signs. -/
lemma splitSign_append {g ds tail : List UInt8} (hg : g = [] ∨ g = [ch '+'] ∨ g = [ch '-'])
    (hne : ds ≠ []) (hds : ∀ d ∈ ds, isDigit d = true) :
    splitSign (g ++ (ds ++ tail)) = (decide (g = [ch '-']), ds ++ tail) := by
  rcases hg with rfl | rfl | rfl
  · cases ds with
    | nil => exact absurd rfl hne
    | cons d ds =>
        have hd := hds d List.mem_cons_self
        have hminus : d ≠ ch '-' := by
          rintro rfl
          exact absurd hd (by decide)
        have hplus : d ≠ ch '+' := by
          rintro rfl
          exact absurd hd (by decide)
        simp [splitSign, hminus, hplus]
  · rfl
  · rfl

lemma takeWhile_isDigit {ds tail : List UInt8} (hds : ∀ d ∈ ds, isDigit d = true)
    (htail : isDigit (tail.headD 0) = false) :
    (ds ++ tail).takeWhile isDigit = ds ∧ (ds ++ tail).dropWhile isDigit = tail := by
  rw [List.takeWhile_append_of_pos hds, List.dropWhile_append_of_pos hds]
  cases tail with
  | nil => simp
  | cons c tail =>
      have hc : isDigit c = false := htail
      simp [hc]

/-- **`strtol` on a numeral** converts all of it and nothing more. -/
theorem strtol_numeral {num tail : List UInt8} {v : ℤ} (h : IsNumeral num v)
    (htail : isDigit (tail.headD 0) = false) :
    strtol (num ++ tail) = ⟨clampLong v, num.length, !decide (FitsLong v)⟩ := by
  rcases h with ⟨w, g, ds, rfl, hw, hg, hne, hds, rfl⟩
  rcases takeWhile_isDigit hds htail with ⟨htake, hdrop⟩
  have hlen : (w ++ (g ++ (ds ++ tail))).length - tail.length = (w ++ (g ++ ds)).length := by
    simp only [List.length_append]
    omega
  rw [show w ++ (g ++ ds) ++ tail = w ++ (g ++ (ds ++ tail)) by simp only [List.append_assoc]]
  simp only [strtol, dropWhile_isSpace hw hg hne hds, splitSign_append hg hne hds, htake, hdrop,
    hne, if_false, hlen, decide_eq_true_eq]

lemma strtol_of_isNumeral {bs : List UInt8} {v : ℤ} (h : IsNumeral bs v) :
    strtol bs = ⟨clampLong v, bs.length, !decide (FitsLong v)⟩ := by
  have hrun := strtol_numeral h (show isDigit (([] : List UInt8).headD 0) = false from isDigit_zero)
  rwa [List.append_nil] at hrun

lemma splitSign_spec (t : List UInt8) :
    ∃ g, t = g ++ (splitSign t).2 ∧ (g = [] ∨ g = [ch '+'] ∨ g = [ch '-']) := by
  cases t with
  | nil => exact ⟨[], rfl, Or.inl rfl⟩
  | cons c u =>
      by_cases hminus : c = ch '-'
      · subst hminus
        exact ⟨[ch '-'], rfl, Or.inr (Or.inr rfl)⟩
      · by_cases hplus : c = ch '+'
        · subst hplus
          exact ⟨[ch '+'], rfl, Or.inr (Or.inl rfl)⟩
        · exact ⟨[], by simp [splitSign, hminus, hplus], Or.inl rfl⟩

/-- **There is no other conversion**: `strtol` stops where it started, or the string begins with a
numeral that no digit follows. -/
theorem strtol_cases (bs : List UInt8) :
    strtol bs = ⟨0, 0, false⟩
      ∨ ∃ num tail v, bs = num ++ tail ∧ IsNumeral num v ∧ isDigit (tail.headD 0) = false := by
  rcases splitSign_spec (bs.dropWhile isSpace) with ⟨g, hsplit, hg⟩
  by_cases hds : (splitSign (bs.dropWhile isSpace)).2.takeWhile isDigit = []
  · left
    simp only [strtol, hds, if_true]
  · right
    set u := (splitSign (bs.dropWhile isSpace)).2 with hu
    refine ⟨bs.takeWhile isSpace ++ (g ++ u.takeWhile isDigit), u.dropWhile isDigit, _, ?_,
      ⟨_, g, _, rfl, fun c hc => List.mem_takeWhile_imp hc, hg, hds,
        fun d hd => List.mem_takeWhile_imp hd, rfl⟩, ?_⟩
    · calc bs = bs.takeWhile isSpace ++ bs.dropWhile isSpace :=
            List.takeWhile_append_dropWhile.symm
        _ = bs.takeWhile isSpace ++ (g ++ (u.takeWhile isDigit ++ u.dropWhile isDigit)) := by
            rw [List.takeWhile_append_dropWhile (p := isDigit), ← hsplit]
        _ = _ := by simp only [List.append_assoc]
    · cases hrest : u.dropWhile isDigit with
      | nil => exact isDigit_zero
      | cons c tail =>
          have hhead := List.head?_dropWhile_not isDigit u
          rw [hrest] at hhead
          simpa using hhead

lemma IsNumeral.ne_nil {bs : List UInt8} {v : ℤ} (h : IsNumeral bs v) : bs ≠ [] := by
  rcases h with ⟨w, g, ds, rfl, _, _, hne, _⟩
  simp [hne]

/-- What a string denotes is a `long` or it is not. -/
lemma IsNumeral.fitsLong_iff {bs : List UInt8} {v v' : ℤ} (h : IsNumeral bs v)
    (h' : IsNumeral bs v') : FitsLong v ↔ FitsLong v' := by
  have hrun := strtol_of_isNumeral h
  rw [strtol_of_isNumeral h'] at hrun
  have hflag := congrArg StrtolResult.erange hrun
  simp only [Bool.not_inj_iff, decide_eq_decide] at hflag
  exact hflag.symm

/-- A string denotes at most one `long`. -/
lemma IsNumeral.unique {bs : List UInt8} {v v' : ℤ} (h : IsNumeral bs v) (h' : IsNumeral bs v')
    (hv : FitsLong v) : v = v' := by
  have hv' := (h.fitsLong_iff h').mp hv
  have hrun := strtol_of_isNumeral h
  rw [strtol_of_isNumeral h', clampLong_eq hv, clampLong_eq hv'] at hrun
  exact (congrArg StrtolResult.value hrun).symm

end CExercises
