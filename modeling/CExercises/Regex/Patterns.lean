import CExercises.Regex.Ipv4

/-!
# Dates and identifiers

The other two patterns of `section6_patterns`.  The date pattern bounds the month and the day by
alternatives, as the IPv4 pattern does an octet, and knows nothing of the lengths of the months.
Both patterns are anchored at both ends, so `check` finds a match valid exactly when the pattern
takes the whole input.
-/

namespace CExercises.Regex

open Ere

def datePattern : String := "^[0-9]{4}-(0[1-9]|1[0-2])-(0[1-9]|[12][0-9]|3[01])$"

def identPattern : String := "^[A-Za-z_][A-Za-z0-9_]*$"

/-- The second block of `section6_patterns`, for one input. -/
def checkDate (input : CStr) : Except Stop String := do
  let date ← compile datePattern
  return check date input

/-- The third block of `section6_patterns`, for one input. -/
def checkIdent (input : CStr) : Except Stop String := do
  let ident ← compile identPattern
  return check ident input

/-- `0[1-9]|1[0-2]`. -/
def month : Re :=
  .alt (.seq (.char '0') (.seq (inRange '1' '9') .empty))
    (.seq (.char '1') (.seq (inRange '0' '2') .empty))

/-- `[12]`. -/
def oneOrTwo : Re := .one ⟨false, [(ch '1', ch '1'), (ch '2', ch '2')]⟩

/-- `0[1-9]|[12][0-9]|3[01]`. -/
def day : Re :=
  .alt (.seq (.char '0') (.seq (inRange '1' '9') .empty))
    (.alt (.seq oneOrTwo (.seq (inRange '0' '9') .empty))
      (.seq (.char '3') (.seq zeroOrOne .empty)))

def date : Re :=
  .seq .bol (.seq (.rep (inRange '0' '9') 4 (some 4)) (.seq (.char '-') (.seq month
    (.seq (.char '-') (.seq day (.seq .eol .empty))))))

/-- `[A-Za-z_]`. -/
def identStart : Ere.Bracket := ⟨false, [(ch 'A', ch 'Z'), (ch 'a', ch 'z'), (ch '_', ch '_')]⟩

/-- `[A-Za-z0-9_]`. -/
def identChar : Ere.Bracket :=
  ⟨false, [(ch 'A', ch 'Z'), (ch 'a', ch 'z'), (ch '0', ch '9'), (ch '_', ch '_')]⟩

def ident : Re :=
  .seq .bol (.seq (.one identStart) (.seq (.rep (.one identChar) 0 none) (.seq .eol .empty)))

lemma compile_date : compile datePattern = .ok date := by
  have hcomp : regcomp datePattern = some date := by decide +kernel
  rw [compile, hcomp]

lemma compile_ident : compile identPattern = .ok ident := by
  have hcomp : regcomp identPattern = some ident := by decide +kernel
  rw [compile, hcomp]

/-- **`full`** with a pattern that reaches the end of the input. -/
lemma full_iff_takes {re : Re} {s : CStr} (hend : ∀ bol u v, Takes bol re u v → v = [])
    (hs : Measurable s) : full re s = true ↔ Takes (some s.strlen) re s.bytes [] := by
  have hint : toInt s.strlen = s.strlen := toInt_eq_self_iff.mpr (fitsInt_natCast hs)
  constructor
  · intro h
    unfold full at h
    split at h
    · cases h
    · rename_i m hm
      have hmatch := (regexec_eq_some_iff.mp hm).isMatch.2.2
      simp only [Bool.decide_and, Bool.and_eq_true, decide_eq_true_eq] at h
      have hnil := hend _ _ _ hmatch
      rw [h.1, List.drop_zero, hnil] at hmatch
      exact hmatch
  · intro h
    have hm : regexec re s.bytes false = some ⟨0, s.bytes.length⟩ := regexec_whole_iff.mpr h
    unfold full
    rw [hm]
    simp only [hint, Bool.decide_and, decide_true, Bool.true_and, decide_eq_true_eq]
    rfl

section

variable {bol : Option ℕ} {u v : List UInt8}

/-! ## Dates -/

/-- Two digits that denote a number in a range. -/
structure IsTwoDigits (lo hi : ℕ) (ds : List UInt8) : Prop where
  isDigit : ∀ d ∈ ds, isDigit d = true
  length : ds.length = 2
  value : lo ≤ decimalValue ds ∧ decimalValue ds ≤ hi

/-- `YYYY-MM-DD` with a month from 1 to 12 and a day from 1 to 31. -/
def IsDate (s : List UInt8) : Prop :=
  ∃ y m d, (y.length = 4 ∧ ∀ b ∈ y, isDigit b = true) ∧ IsTwoDigits 1 12 m ∧ IsTwoDigits 1 31 d
    ∧ s = y ++ ch '-' :: (m ++ ch '-' :: d)

lemma isTwoDigits_iff {lo hi : ℕ} {ds : List UInt8} : IsTwoDigits lo hi ds ↔
    ∃ c d, ds = [c, d] ∧ (48 ≤ c.toNat ∧ c.toNat ≤ 57) ∧ (48 ≤ d.toNat ∧ d.toNat ≤ 57)
      ∧ lo ≤ 10 * (c.toNat - 48) + (d.toNat - 48) ∧ 10 * (c.toNat - 48) + (d.toNat - 48) ≤ hi := by
  constructor
  · rintro ⟨hdigit, hlen, hvalue⟩
    match ds, hlen with
    | [c, d], _ =>
        have hc := isDigit_iff.mp (hdigit c (by simp))
        have hd := isDigit_iff.mp (hdigit d (by simp))
        simp only [decimalValue, List.foldl_cons, List.foldl_nil] at hvalue
        exact ⟨c, d, rfl, hc, hd, by omega, by omega⟩
  · rintro ⟨c, d, rfl, hc, hd, hlo, hhi⟩
    refine ⟨by simp [isDigit_iff, hc, hd], rfl, ?_⟩
    simp only [decimalValue, List.foldl_cons, List.foldl_nil]
    omega

/-- A digit and a range. -/
lemma takes_digit_range {c lo hi : Char} :
    Takes bol (.seq (.char c) (.seq (inRange lo hi) .empty)) u v ↔
      ∃ d, ((ch lo).toNat ≤ d.toNat ∧ d.toNat ≤ (ch hi).toNat) ∧ u = ch c :: d :: v := by
  constructor
  · rintro ⟨w, hc, h⟩
    rw [takes_seq_empty, takes_inRange] at h
    rcases h with ⟨d, hd, rfl⟩
    exact ⟨d, hd, takes_char.mp hc⟩
  · rintro ⟨d, hd, rfl⟩
    exact ⟨d :: v, takes_char.mpr rfl, takes_seq_empty.mpr (takes_inRange.mpr ⟨d, hd, rfl⟩)⟩

lemma takes_month : Takes bol month u v ↔ ∃ m, IsTwoDigits 1 12 m ∧ u = m ++ v := by
  simp only [month, takes_alt, takes_digit_range, isTwoDigits_iff]
  constructor
  · rintro (⟨d, hd, rfl⟩ | ⟨d, hd, rfl⟩)
    · change 49 ≤ d.toNat ∧ d.toNat ≤ 57 at hd
      refine ⟨_, ⟨ch '0', d, rfl, ?_⟩, rfl⟩
      simp only [show (ch '0').toNat = 48 from rfl]
      omega
    · change 48 ≤ d.toNat ∧ d.toNat ≤ 50 at hd
      refine ⟨_, ⟨ch '1', d, rfl, ?_⟩, rfl⟩
      simp only [show (ch '1').toNat = 49 from rfl]
      omega
  · rintro ⟨_, ⟨c, d, rfl, hc, hd, hlo, hhi⟩, rfl⟩
    have htens : c.toNat = 48 ∨ c.toNat = 49 := by omega
    rcases htens with htens | htens
    · obtain rfl : c = ch '0' := UInt8.toNat_inj.mp htens
      exact Or.inl ⟨d, ⟨show 49 ≤ d.toNat by omega, hd.2⟩, rfl⟩
    · obtain rfl : c = ch '1' := UInt8.toNat_inj.mp htens
      exact Or.inr ⟨d, ⟨hd.1, show d.toNat ≤ 50 by omega⟩, rfl⟩

lemma takes_oneOrTwo : Takes bol oneOrTwo u v ↔
    ∃ c, (49 ≤ c.toNat ∧ c.toNat ≤ 50) ∧ u = c :: v := by
  have hhas : ∀ c : UInt8, Ere.Bracket.has ⟨false, [(ch '1', ch '1'), (ch '2', ch '2')]⟩ c = true
      ↔ 49 ≤ c.toNat ∧ c.toNat ≤ 50 := by
    intro c
    simp [Ere.Bracket.has, UInt8.le_iff_toNat_le, show (ch '1').toNat = 49 from rfl,
      show (ch '2').toNat = 50 from rfl]
    omega
  simp only [oneOrTwo, Takes, hhas]

lemma takes_day : Takes bol day u v ↔ ∃ d, IsTwoDigits 1 31 d ∧ u = d ++ v := by
  simp only [day, takes_alt, takes_digit_range, isTwoDigits_iff]
  constructor
  · rintro (⟨d, hd, rfl⟩ | ⟨w, htens, hunits⟩ | ⟨w, htens, hunits⟩)
    · change 49 ≤ d.toNat ∧ d.toNat ≤ 57 at hd
      refine ⟨_, ⟨ch '0', d, rfl, ?_⟩, rfl⟩
      simp only [show (ch '0').toNat = 48 from rfl]
      omega
    · rw [takes_seq_empty, takes_inRange] at hunits
      rcases hunits with ⟨d, hd, rfl⟩
      rcases takes_oneOrTwo.mp htens with ⟨c, hc, rfl⟩
      change 48 ≤ d.toNat ∧ d.toNat ≤ 57 at hd
      exact ⟨_, ⟨c, d, rfl, by omega, hd, by omega, by omega⟩, rfl⟩
    · rw [takes_seq_empty, takes_zeroOrOne] at hunits
      rcases hunits with ⟨d, hd, rfl⟩
      rw [takes_char] at htens
      refine ⟨_, ⟨ch '3', d, rfl, ?_⟩, htens⟩
      simp only [show (ch '3').toNat = 51 from rfl]
      omega
  · rintro ⟨_, ⟨c, d, rfl, hc, hd, hlo, hhi⟩, rfl⟩
    by_cases hzero : c.toNat = 48
    · obtain rfl : c = ch '0' := UInt8.toNat_inj.mp hzero
      exact Or.inl ⟨d, ⟨show 49 ≤ d.toNat by omega, hd.2⟩, rfl⟩
    · by_cases hthree : c.toNat = 51
      · obtain rfl : c = ch '3' := UInt8.toNat_inj.mp hthree
        refine Or.inr (Or.inr ⟨d :: v, takes_char.mpr rfl, takes_seq_empty.mpr ?_⟩)
        exact takes_zeroOrOne.mpr ⟨d, ⟨hd.1, by omega⟩, rfl⟩
      · refine Or.inr (Or.inl ⟨d :: v, takes_oneOrTwo.mpr ⟨c, by omega, rfl⟩, ?_⟩)
        exact takes_seq_empty.mpr (takes_inRange.mpr ⟨d, hd, rfl⟩)

lemma takes_date : Takes bol date u v ↔ bol = some u.length ∧ v = [] ∧ IsDate u := by
  constructor
  · rintro ⟨_, ⟨hbol, rfl⟩, a, hyear, b, hdash, c, hmonth, d, hdash', e, hday, hend⟩
    rcases iter_one.mp (takes_times.mp hyear) with ⟨y, hlen, hy, rfl⟩
    obtain rfl := takes_char.mp hdash
    rcases takes_month.mp hmonth with ⟨m, hm, rfl⟩
    obtain rfl := takes_char.mp hdash'
    rcases takes_day.mp hday with ⟨d, hd, rfl⟩
    obtain ⟨rfl, rfl⟩ := takes_seq_empty.mp hend
    refine ⟨hbol, rfl, y, m, d, ⟨hlen, fun b hb => ?_⟩, hm, hd, by rw [List.append_nil]⟩
    exact isDigit_iff.mpr (has_range.mp (hy b hb))
  · rintro ⟨hbol, rfl, y, m, d, ⟨hlen, hy⟩, hm, hd, rfl⟩
    refine ⟨_, ⟨hbol, rfl⟩, _, takes_times.mpr (iter_one.mpr ⟨y, hlen, ?_, rfl⟩), _,
      takes_char.mpr rfl, _, takes_month.mpr ⟨m, hm, rfl⟩, _, takes_char.mpr rfl, [], ?_, ?_⟩
    · intro b hb
      exact has_range.mpr (isDigit_iff.mp (hy b hb))
    · exact takes_day.mpr ⟨d, hd, (List.append_nil d).symm⟩
    · exact takes_seq_empty.mpr ⟨rfl, rfl⟩

/-! ## Identifiers -/

/-- A letter or an underscore. -/
def IsIdentStart (c : UInt8) : Prop :=
  (65 ≤ c.toNat ∧ c.toNat ≤ 90) ∨ (97 ≤ c.toNat ∧ c.toNat ≤ 122) ∨ c.toNat = 95

/-- A C identifier. -/
def IsIdent (s : List UInt8) : Prop :=
  ∃ c w, s = c :: w ∧ IsIdentStart c ∧ ∀ b ∈ w, IsIdentStart b ∨ isDigit b = true

lemma has_identStart {c : UInt8} : identStart.has c = true ↔ IsIdentStart c := by
  simp [identStart, Ere.Bracket.has, IsIdentStart, UInt8.le_iff_toNat_le,
    show (ch 'A').toNat = 65 from rfl, show (ch 'Z').toNat = 90 from rfl,
    show (ch 'a').toNat = 97 from rfl, show (ch 'z').toNat = 122 from rfl,
    show (ch '_').toNat = 95 from rfl]
  omega

lemma has_identChar {c : UInt8} :
    identChar.has c = true ↔ IsIdentStart c ∨ isDigit c = true := by
  simp [identChar, Ere.Bracket.has, IsIdentStart, isDigit_iff, UInt8.le_iff_toNat_le,
    show (ch 'A').toNat = 65 from rfl, show (ch 'Z').toNat = 90 from rfl,
    show (ch 'a').toNat = 97 from rfl, show (ch 'z').toNat = 122 from rfl,
    show (ch '_').toNat = 95 from rfl, show (ch '0').toNat = 48 from rfl,
    show (ch '9').toNat = 57 from rfl]
  omega

lemma takes_ident : Takes bol ident u v ↔ bol = some u.length ∧ v = [] ∧ IsIdent u := by
  constructor
  · rintro ⟨_, ⟨hbol, rfl⟩, a, ⟨c, hc, rfl⟩, b, ⟨n, _, _, hiter⟩, hend⟩
    rcases iter_one.mp hiter with ⟨w, _, hw, rfl⟩
    obtain ⟨rfl, rfl⟩ := takes_seq_empty.mp hend
    refine ⟨hbol, rfl, c, w, by rw [List.append_nil], has_identStart.mp hc, fun b hb => ?_⟩
    exact has_identChar.mp (hw b hb)
  · rintro ⟨hbol, rfl, c, w, rfl, hc, hw⟩
    refine ⟨_, ⟨hbol, rfl⟩, w, ⟨c, has_identStart.mpr hc, rfl⟩, [],
      ⟨w.length, Nat.zero_le _, by simp, iter_one.mpr ⟨w, rfl, ?_, (List.append_nil w).symm⟩⟩,
      takes_seq_empty.mpr ⟨rfl, rfl⟩⟩
    intro b hb
    exact has_identChar.mpr (hw b hb)

end

/-- **Dates.**  An input is valid exactly when it is `YYYY-MM-DD` with a month from 1 to 12 and a
day from 1 to 31, whatever the month. -/
theorem date_check_valid_iff (s : CStr) (hs : Measurable s) :
    (checkDate s = .ok "valid" ↔ IsDate s.bytes)
      ∧ (checkDate s = .ok "INVALID" ↔ ¬ IsDate s.bytes) := by
  have hfull : full date s = true ↔ IsDate s.bytes := by
    rw [full_iff_takes (fun _ _ _ h => (takes_date.mp h).2.1) hs, takes_date]
    exact ⟨fun h => h.2.2, fun h => ⟨rfl, rfl, h⟩⟩
  rw [checkDate, compile_date, ok_bind, pure_eq_ok, check, ← hfull]
  cases full date s <;> simp

/-- `"2026-06-06"`. -/
theorem date_check_valid_iff_june :
    let s : CStr := ⟨[50, 48, 50, 54, 45, 48, 54, 45, 48, 54], by decide +kernel⟩
    Measurable s ∧ (checkDate s = .ok "valid" ↔ IsDate s.bytes) := by
  intro s
  have hs : Measurable s := by
    simp only [Measurable, s, CStr.strlen, List.length_cons, List.length_nil, INT_MAX]
    omega
  exact ⟨hs, (date_check_valid_iff s hs).1⟩

/-- **Identifiers.**  An input is valid exactly when it is a C identifier. -/
theorem ident_check_valid_iff (s : CStr) (hs : Measurable s) :
    (checkIdent s = .ok "valid" ↔ IsIdent s.bytes)
      ∧ (checkIdent s = .ok "INVALID" ↔ ¬ IsIdent s.bytes) := by
  have hfull : full ident s = true ↔ IsIdent s.bytes := by
    rw [full_iff_takes (fun _ _ _ h => (takes_ident.mp h).2.1) hs, takes_ident]
    exact ⟨fun h => h.2.2, fun h => ⟨rfl, rfl, h⟩⟩
  rw [checkIdent, compile_ident, ok_bind, pure_eq_ok, check, ← hfull]
  cases full ident s <;> simp

/-- `"my_var"`. -/
theorem ident_check_valid_iff_my_var :
    let s : CStr := ⟨[109, 121, 95, 118, 97, 114], by decide +kernel⟩
    Measurable s ∧ (checkIdent s = .ok "valid" ↔ IsIdent s.bytes) := by
  intro s
  have hs : Measurable s := by
    simp only [Measurable, s, CStr.strlen, List.length_cons, List.length_nil, INT_MAX]
    omega
  exact ⟨hs, (ident_check_valid_iff s hs).1⟩

end CExercises.Regex
