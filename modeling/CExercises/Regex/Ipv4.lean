import CExercises.Core.Strtol
import CExercises.Regex.Def

/-!
# The language of the IPv4 pattern

`ipv4` is the pattern as `regcomp` reads it.  An octet of the pattern is one of three alternatives
that overlap and of which the last has two optional digits; taken together they are the groups of
one to three digits that denote a number up to 255, leading zeros included.
-/

namespace CExercises.Regex

open Ere

/-- A range of characters in brackets. -/
def inRange (lo hi : Char) : Re := .one ⟨false, [(ch lo, ch hi)]⟩

/-- `[01]`. -/
def zeroOrOne : Re := .one ⟨false, [(ch '0', ch '0'), (ch '1', ch '1')]⟩

/-- `25[0-5]|2[0-4][0-9]|[01]?[0-9][0-9]?`. -/
def octet : Re :=
  .alt (.seq (.char '2') (.seq (.char '5') (.seq (inRange '0' '5') .empty)))
    (.alt (.seq (.char '2') (.seq (inRange '0' '4') (.seq (inRange '0' '9') .empty)))
      (.seq (.rep zeroOrOne 0 (some 1))
        (.seq (inRange '0' '9') (.seq (.rep (inRange '0' '9') 0 (some 1)) .empty))))

def ipv4 : Re :=
  .seq .bol (.seq (.rep (.seq octet (.seq (.char '.') .empty)) 3 (some 3))
    (.seq octet (.seq .eol .empty)))

lemma compile_ipv4 : compile ipv4Pattern = .ok ipv4 := by
  have hcomp : regcomp ipv4Pattern = some ipv4 := by decide +kernel
  rw [compile, hcomp]

/-- One to three digits that denote a number from 0 to 255. -/
structure IsOctet (ds : List UInt8) : Prop where
  isDigit : ∀ d ∈ ds, isDigit d = true
  length : 1 ≤ ds.length ∧ ds.length ≤ 3
  value : decimalValue ds ≤ 255

/-- Exactly four groups between the dots, each an octet. -/
def IsDottedQuad (s : List UInt8) : Prop :=
  (s.splitOn (ch '.')).length = 4 ∧ ∀ g ∈ s.splitOn (ch '.'), IsOctet g

section

variable {bol : Option ℕ} {u v : List UInt8} {c d e : UInt8}

/-! ## Octets -/

lemma takes_inRange {lo hi : Char} : Takes bol (inRange lo hi) u v ↔
    ∃ c, ((ch lo).toNat ≤ c.toNat ∧ c.toNat ≤ (ch hi).toNat) ∧ u = c :: v := by
  simp only [inRange, Takes, has_range]

lemma takes_zeroOrOne : Takes bol zeroOrOne u v ↔
    ∃ c, (48 ≤ c.toNat ∧ c.toNat ≤ 49) ∧ u = c :: v := by
  have hhas : ∀ c : UInt8, Ere.Bracket.has ⟨false, [(ch '0', ch '0'), (ch '1', ch '1')]⟩ c = true
      ↔ 48 ≤ c.toNat ∧ c.toNat ≤ 49 := by
    intro c
    simp [Ere.Bracket.has, UInt8.le_iff_toNat_le, show (ch '0').toNat = 48 from rfl,
      show (ch '1').toNat = 49 from rfl]
    omega
  simp only [zeroOrOne, Takes, hhas]

lemma isDigit_iff : isDigit c = true ↔ 48 ≤ c.toNat ∧ c.toNat ≤ 57 := by
  simp [isDigit]

lemma isOctet_one (hc : isDigit c = true) : IsOctet [c] := by
  rw [isDigit_iff] at hc
  refine ⟨by simp [isDigit_iff, hc], by simp, ?_⟩
  simp only [decimalValue, List.foldl_cons, List.foldl_nil]
  omega

lemma isOctet_two (hc : isDigit c = true) (hd : isDigit d = true) : IsOctet [c, d] := by
  rw [isDigit_iff] at hc hd
  refine ⟨by simp [isDigit_iff, hc, hd], by simp, ?_⟩
  simp only [decimalValue, List.foldl_cons, List.foldl_nil]
  omega

/-- Three digits: the alternatives of the pattern are what keeps them below 256. -/
lemma isOctet_three_iff : IsOctet [c, d, e] ↔
    (isDigit c = true ∧ isDigit d = true ∧ isDigit e = true)
      ∧ (c.toNat ≤ 49 ∨ c.toNat = 50 ∧ (d.toNat ≤ 52 ∨ d.toNat = 53 ∧ e.toNat ≤ 53)) := by
  constructor
  · rintro ⟨hdigit, _, hvalue⟩
    have hc := hdigit c (by simp)
    have hd := hdigit d (by simp)
    have he := hdigit e (by simp)
    refine ⟨⟨hc, hd, he⟩, ?_⟩
    rw [isDigit_iff] at hc hd he
    simp only [decimalValue, List.foldl_cons, List.foldl_nil] at hvalue
    omega
  · rintro ⟨⟨hc, hd, he⟩, hle⟩
    refine ⟨by simp [hc, hd, he], by simp, ?_⟩
    rw [isDigit_iff] at hc hd he
    simp only [decimalValue, List.foldl_cons, List.foldl_nil]
    omega

/-- What the pattern takes for an octet is one. -/
lemma isOctet_of_takes (h : Takes bol octet u v) : ∃ ds, IsOctet ds ∧ u = ds ++ v := by
  rcases h with ⟨_, h₂, _, h₅, h⟩ | ⟨_, h₂, _, hd, h⟩ | ⟨_, ha, _, hb, h⟩
  · -- `25[0-5]`
    rw [takes_char] at h₂ h₅
    rw [takes_seq_empty, takes_inRange] at h
    rcases h with ⟨e, he, rfl⟩
    subst h₅ h₂
    change 48 ≤ e.toNat ∧ e.toNat ≤ 53 at he
    have hdigit : isDigit e = true := isDigit_iff.mpr (by omega)
    exact ⟨[ch '2', ch '5', e],
      isOctet_three_iff.mpr ⟨⟨rfl, rfl, hdigit⟩, Or.inr ⟨rfl, Or.inr ⟨rfl, he.2⟩⟩⟩, rfl⟩
  · -- `2[0-4][0-9]`
    rw [takes_char] at h₂
    rw [takes_inRange] at hd
    rw [takes_seq_empty, takes_inRange] at h
    rcases h with ⟨e, he, rfl⟩
    rcases hd with ⟨d, hd, rfl⟩
    subst h₂
    change 48 ≤ d.toNat ∧ d.toNat ≤ 52 at hd
    have hdigit : isDigit d = true := isDigit_iff.mpr (by omega)
    exact ⟨[ch '2', d, e],
      isOctet_three_iff.mpr ⟨⟨rfl, hdigit, isDigit_iff.mpr he⟩, Or.inr ⟨rfl, Or.inl hd.2⟩⟩, rfl⟩
  · -- `[01]?[0-9][0-9]?`
    rw [takes_optional, takes_zeroOrOne] at ha
    rw [takes_inRange] at hb
    rw [takes_seq_empty, takes_optional, takes_inRange] at h
    rcases hb with ⟨d, hd, rfl⟩
    have hdigit : isDigit d = true := isDigit_iff.mpr hd
    rcases ha with rfl | ⟨c, hc, rfl⟩
    · rcases h with rfl | ⟨e, he, rfl⟩
      · exact ⟨[d], isOctet_one hdigit, rfl⟩
      · exact ⟨[d, e], isOctet_two hdigit (isDigit_iff.mpr he), rfl⟩
    · have hcdigit : isDigit c = true := isDigit_iff.mpr (by omega)
      rcases h with rfl | ⟨e, he, rfl⟩
      · exact ⟨[c, d], isOctet_two hcdigit hdigit, rfl⟩
      · exact ⟨[c, d, e], isOctet_three_iff.mpr
          ⟨⟨hcdigit, hdigit, isDigit_iff.mpr he⟩, Or.inl hc.2⟩, rfl⟩

/-- The last alternative, with and without its optional digits. -/
lemma takes_octet_short {a b : List UInt8} (hd : isDigit d = true)
    (ha : a = [] ∨ ∃ c, (48 ≤ c.toNat ∧ c.toNat ≤ 49) ∧ a = [c])
    (hb : b = [] ∨ ∃ e, isDigit e = true ∧ b = [e]) : Takes bol octet (a ++ d :: b ++ v) v := by
  refine Or.inr (Or.inr ⟨d :: b ++ v, ?_, b ++ v, ?_, ?_⟩)
  · rw [takes_optional, takes_zeroOrOne]
    rcases ha with rfl | ⟨c, hc, rfl⟩
    · exact Or.inl rfl
    · exact Or.inr ⟨c, hc, rfl⟩
  · rw [takes_inRange]
    exact ⟨d, isDigit_iff.mp hd, rfl⟩
  · rw [takes_seq_empty, takes_optional, takes_inRange]
    rcases hb with rfl | ⟨e, he, rfl⟩
    · exact Or.inl rfl
    · exact Or.inr ⟨e, isDigit_iff.mp he, rfl⟩

/-- The pattern takes every octet. -/
lemma takes_octet {ds : List UInt8} (h : IsOctet ds) : Takes bol octet (ds ++ v) v := by
  have hlen := h.length
  match ds, h with
  | [], h => simp at hlen
  | [d], h => exact takes_octet_short (h.isDigit d (by simp)) (Or.inl rfl) (Or.inl rfl)
  | [d, e], h =>
      exact takes_octet_short (h.isDigit d (by simp)) (Or.inl rfl)
        (Or.inr ⟨e, h.isDigit e (by simp), rfl⟩)
  | [c, d, e], h =>
      rcases isOctet_three_iff.mp h with ⟨⟨hc, hd, he⟩, hle⟩
      rw [isDigit_iff] at hc
      rcases hle with hle | ⟨h₂, hle⟩
      · exact takes_octet_short hd (Or.inr ⟨c, ⟨hc.1, hle⟩, rfl⟩) (Or.inr ⟨e, he, rfl⟩)
      · obtain rfl : c = ch '2' := UInt8.toNat_inj.mp h₂
        rw [isDigit_iff] at hd he
        rcases hle with hle | ⟨h₅, hle⟩
        · refine Or.inr (Or.inl ⟨d :: e :: v, takes_char.mpr rfl, e :: v, ?_, ?_⟩)
          · exact takes_inRange.mpr ⟨d, ⟨hd.1, hle⟩, rfl⟩
          · exact takes_seq_empty.mpr (takes_inRange.mpr ⟨e, he, rfl⟩)
        · obtain rfl : d = ch '5' := UInt8.toNat_inj.mp h₅
          refine Or.inl ⟨_, takes_char.mpr rfl, _, takes_char.mpr rfl, ?_⟩
          exact takes_seq_empty.mpr (takes_inRange.mpr ⟨e, ⟨he.1, hle⟩, rfl⟩)
  | _ :: _ :: _ :: _ :: _, h =>
      simp only [List.length_cons] at hlen
      omega

/-- **Octets.** -/
lemma takes_octet_iff : Takes bol octet u v ↔ ∃ ds, IsOctet ds ∧ u = ds ++ v := by
  constructor
  · exact isOctet_of_takes
  · rintro ⟨ds, hds, rfl⟩
    exact takes_octet hds

/-! ## The whole pattern -/

/-- An octet and the dot behind it. -/
lemma takes_octet_dot_iff : Takes bol (.seq octet (.seq (.char '.') .empty)) u v ↔
    ∃ g, IsOctet g ∧ u = g ++ ch '.' :: v := by
  constructor
  · rintro ⟨w, hoctet, hdot⟩
    rw [takes_seq_empty, takes_char] at hdot
    rw [← hdot]
    exact takes_octet_iff.mp hoctet
  · rintro ⟨g, hg, rfl⟩
    exact ⟨_, takes_octet hg, takes_seq_empty.mpr (takes_char.mpr rfl)⟩

lemma takes_ipv4_iff : Takes bol ipv4 u v ↔ bol = some u.length ∧ v = [] ∧
    ∃ a b c d, (IsOctet a ∧ IsOctet b ∧ IsOctet c ∧ IsOctet d)
      ∧ u = a ++ ch '.' :: (b ++ ch '.' :: (c ++ ch '.' :: d)) := by
  constructor
  · rintro ⟨_, ⟨hbol, rfl⟩, w, hthree, x, hlast, hend⟩
    rcases takes_times.mp hthree with ⟨y, h₁, z, h₂, t, h₃, rfl⟩
    rcases takes_octet_dot_iff.mp h₁ with ⟨a, ha, rfl⟩
    rcases takes_octet_dot_iff.mp h₂ with ⟨b, hb, rfl⟩
    rcases takes_octet_dot_iff.mp h₃ with ⟨c, hc, rfl⟩
    rcases takes_octet_iff.mp hlast with ⟨d, hd, rfl⟩
    rcases takes_seq_empty.mp hend with ⟨rfl, rfl⟩
    exact ⟨hbol, rfl, a, b, c, d, ⟨ha, hb, hc, hd⟩, by rw [List.append_nil]⟩
  · rintro ⟨hbol, rfl, a, b, c, d, ⟨ha, hb, hc, hd⟩, rfl⟩
    have hthree : Iter (Takes bol (.seq octet (.seq (.char '.') .empty))) 3
        (a ++ ch '.' :: (b ++ ch '.' :: (c ++ ch '.' :: d))) d :=
      ⟨_, takes_octet_dot_iff.mpr ⟨a, ha, rfl⟩, _, takes_octet_dot_iff.mpr ⟨b, hb, rfl⟩, _,
        takes_octet_dot_iff.mpr ⟨c, hc, rfl⟩, rfl⟩
    refine ⟨_, ⟨hbol, rfl⟩, d, takes_times.mpr hthree, [], ?_, ?_⟩
    · exact takes_octet_iff.mpr ⟨d, hd, (List.append_nil d).symm⟩
    · exact takes_seq_empty.mpr ⟨rfl, rfl⟩

lemma IsOctet.no_dot {g : List UInt8} (h : IsOctet g) : ch '.' ∉ g := fun hmem =>
  absurd (h.isDigit _ hmem) (by decide)

/-- The groups between the dots are the octets that were put together. -/
lemma isDottedQuad_iff : IsDottedQuad u ↔
    ∃ a b c d, (IsOctet a ∧ IsOctet b ∧ IsOctet c ∧ IsOctet d)
      ∧ u = a ++ ch '.' :: (b ++ ch '.' :: (c ++ ch '.' :: d)) := by
  constructor
  · rintro ⟨hlen, hgroups⟩
    have hjoin : [ch '.'].intercalate (u.splitOn (ch '.')) = u := List.intercalate_splitOn _
    obtain ⟨a, b, c, d, hsplit⟩ : ∃ a b c d, u.splitOn (ch '.') = [a, b, c, d] := by
      match u.splitOn (ch '.'), hlen with
      | [a, b, c, d], _ => exact ⟨a, b, c, d, rfl⟩
    rw [hsplit] at hjoin hgroups
    refine ⟨a, b, c, d, ?_, ?_⟩
    · simpa using hgroups
    · rw [← hjoin]
      simp [List.intercalate]
  · rintro ⟨a, b, c, d, ⟨ha, hb, hc, hd⟩, rfl⟩
    have hsplit : (a ++ ch '.' :: (b ++ ch '.' :: (c ++ ch '.' :: d))).splitOn (ch '.')
        = [a, b, c, d] := by
      have hjoin : ([ch '.'].intercalate [a, b, c, d]).splitOn (ch '.') = [a, b, c, d] :=
        List.splitOn_intercalate _ (by simp [ha.no_dot, hb.no_dot, hc.no_dot, hd.no_dot]) (by simp)
      simpa [List.intercalate] using hjoin
    rw [IsDottedQuad, hsplit]
    simp [ha, hb, hc, hd]

/-- A dotted quad is short. -/
lemma IsDottedQuad.length_le (h : IsDottedQuad u) : u.length ≤ 15 := by
  rcases isDottedQuad_iff.mp h with ⟨a, b, c, d, ⟨ha, hb, hc, hd⟩, rfl⟩
  have hla := ha.length
  have hlb := hb.length
  have hlc := hc.length
  have hld := hd.length
  simp only [List.length_append, List.length_cons]
  omega

end

/-- **`full` with the IPv4 pattern.** -/
lemma full_ipv4_iff (s : CStr) : full ipv4 s = true ↔ IsDottedQuad s.bytes := by
  constructor
  · intro h
    unfold full at h
    split at h
    · cases h
    · rename_i m hm
      have hmatch := (regexec_eq_some_iff.mp hm).isMatch.2.2
      simp only [Bool.decide_and, Bool.and_eq_true, decide_eq_true_eq] at h
      rw [h.1, List.drop_zero] at hmatch
      exact isDottedQuad_iff.mpr (takes_ipv4_iff.mp hmatch).2.2
  · intro h
    have hm : regexec ipv4 s.bytes false = some ⟨0, s.bytes.length⟩ :=
      regexec_whole_iff.mpr (takes_ipv4_iff.mpr ⟨rfl, rfl, isDottedQuad_iff.mp h⟩)
    have hlen := h.length_le
    have hint : toInt s.strlen = s.bytes.length :=
      toInt_eq_self_iff.mpr (fitsInt_natCast (by unfold INT_MAX CStr.strlen; omega))
    simp [full, hm, hint]

/-- **The IPv4 validator.**  The pattern compiles, and for every string the verdict is `valid`
exactly when the string is four groups between dots, each of one to three digits that denote a
number from 0 to 255; otherwise it is `INVALID`. -/
theorem ipv4_check_valid_iff (s : CStr) :
    (checkIpv4 s = .ok "valid" ↔ IsDottedQuad s.bytes)
      ∧ (checkIpv4 s = .ok "INVALID" ↔ ¬ IsDottedQuad s.bytes) := by
  rw [checkIpv4, compile_ipv4, ok_bind, pure_eq_ok, check, ← full_ipv4_iff]
  cases full ipv4 s <;> simp

end CExercises.Regex
