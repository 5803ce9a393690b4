import CExercises.Core.Strtol

/-!
# Canonical decimals

What `printf("%d", v)` writes: a minus sign for a negative number, then the digits of its magnitude
without leading zeros.  `IsNumeral` of `Core/Strtol.lean` is what may be *read* as a number; here
every number has one form.
-/

namespace CExercises

/-- The digits of `m`, most significant first, and a `0` in front only for zero itself. -/
structure IsDigits (ds : List UInt8) (m : ℕ) : Prop where
  ne_nil : ds ≠ []
  isDigit : ∀ d ∈ ds, isDigit d = true
  value : decimalValue ds = m
  leading : ds.head? = some (ch '0') → ds = [ch '0']

/-- The canonical decimal of `v`. -/
def IsDecimal (bs : List UInt8) (v : ℤ) : Prop :=
  ∃ ds, bs = (if v < 0 then [ch '-'] else []) ++ ds ∧ IsDigits ds v.natAbs

/-- `'0' + d`, converted to `char`. -/
def digitChar (d : ℤ) : UInt8 := UInt8.ofInt (48 + d)

variable {ds : List UInt8} {m d : ℕ}

lemma toNat_digitChar (hd : d < 10) : (digitChar d).toNat = 48 + d := by
  have hmod : ((48 + (d : ℤ)) % 2 ^ 8).toNat = 48 + d := by omega
  rw [digitChar, UInt8.ofInt, hmod, UInt8.toNat_ofNat']
  omega

lemma isDigit_digitChar (hd : d < 10) : isDigit (digitChar d) = true := by
  simp only [isDigit, toNat_digitChar hd, decide_eq_true_eq]
  omega

lemma decimalValue_concat (ds : List UInt8) (hd : d < 10) :
    decimalValue (ds ++ [digitChar d]) = 10 * decimalValue ds + d := by
  simp [decimalValue, toNat_digitChar hd]

lemma isDigits_digitChar (hd : d < 10) : IsDigits [digitChar d] d where
  ne_nil := List.cons_ne_nil _ _
  isDigit := by simp [isDigit_digitChar hd]
  value := by simp [decimalValue, toNat_digitChar hd]
  leading := by simp

/-- Another digit at the end. -/
lemma IsDigits.concat (h : IsDigits ds m) (hm : 0 < m) (hd : d < 10) :
    IsDigits (ds ++ [digitChar d]) (10 * m + d) where
  ne_nil := by simp
  isDigit := by
    intro c hc
    rcases List.mem_append.mp hc with hc | hc
    · exact h.isDigit c hc
    · rw [List.mem_singleton.mp hc]
      exact isDigit_digitChar hd
  value := by rw [decimalValue_concat ds hd, h.value]
  leading := by
    obtain ⟨c, cs, rfl⟩ := List.exists_cons_of_ne_nil h.ne_nil
    intro hlead
    have hzero := h.value
    rw [h.leading hlead] at hzero
    exact absurd (hzero.symm.trans (by decide : decimalValue [ch '0'] = 0)) (by omega)

end CExercises
