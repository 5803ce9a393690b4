import CExercises.Signals.Def
import Mathlib.Algebra.Group.Nat.Defs

/-!
# `write_int` writes canonical decimals

The loop stores the last digit first and then, in front of it, the digits of the quotient; so the
filled part of the buffer is at every moment the end of the decimal, and the quotient is what is
missing.  `storeDigits_spec` says this for a whole run of the loop.

The one number it goes wrong for is `INT_MIN`, whose negation wraps to itself: the remainder is then
negative, and so is the quotient, which ends the loop.
-/

namespace CExercises.Signals

variable {buf : Block UInt8} {top : ℤ} {stack f : ℤ → UInt8} {i n : ℕ}

/-- One pass of the loop. -/
lemma storeDigits_succ (hcov : buf.Covers 0 top) (hi : (i : ℤ) ≤ top) :
    storeDigits (buf.withCells f) (i + 1) n
      = if 10 ≤ n then
          storeDigits (buf.withCells (Function.update f i (digitChar (n % 10 : ℕ)))) i (n / 10 : ℕ)
        else .ok (buf.withCells (Function.update f i (digitChar (n % 10 : ℕ))), i) := by
  have hmod : (n : ℤ).tmod 10 = (n % 10 : ℕ) := rfl
  have hdiv : (n : ℤ).tdiv 10 = (n / 10 : ℕ) := rfl
  have hpos : ((n / 10 : ℕ) : ℤ) > 0 ↔ 10 ≤ n := by omega
  rw [storeDigits, (hcov.withCells f).store (by omega) hi, ok_bind, hmod, hdiv]
  simp only [hpos, Block.withCells_withCells, Block.withCells_cells, pure_eq_ok]

/-- The last pass. -/
lemma storeDigits_stop (buf : Block UInt8) (f : ℤ → UInt8) (i : ℕ) (hn : n < 10) :
    ∃ g j, Except.ok (buf.withCells (Function.update f i (digitChar (n % 10 : ℕ))), (i : ℤ))
        = (.ok (buf.withCells g, j) : Except Stop _)
      ∧ ((i + 1 : ℕ) : ℤ) ≤ j + (0 + 1) ∧ j < (i + 1 : ℕ)
      ∧ IsDigits (seg g j ((i + 1 : ℕ) - 1)) n ∧ ∀ k : ℤ, (i + 1 : ℕ) ≤ k → g k = f k := by
  refine ⟨_, i, rfl, by omega, by omega, ?_, fun k hk => Function.update_of_ne (by omega) _ _⟩
  rw [show ((i + 1 : ℕ) : ℤ) - 1 = i by omega, seg_concat (le_refl _), seg_nil (by omega),
    Function.update_self, Nat.mod_eq_of_lt hn]
  exact isDigits_digitChar hn

/-- The loop on a number of at most `m + 1` digits. -/
lemma storeDigits_spec (hcov : buf.Covers 0 top) (m : ℕ) : ∀ (f : ℤ → UInt8) (i n : ℕ),
    n < 10 ^ (m + 1) → m + 1 ≤ i → (i : ℤ) ≤ top + 1 →
    ∃ g j, storeDigits (buf.withCells f) i n = .ok (buf.withCells g, j) ∧ (i : ℤ) ≤ j + (m + 1)
      ∧ j < i ∧ IsDigits (seg g j (i - 1)) n ∧ ∀ k : ℤ, i ≤ k → g k = f k := by
  induction m with
  | zero =>
      intro f i n hn hi htop
      obtain ⟨i, rfl⟩ := Nat.exists_eq_add_of_le' hi
      rw [storeDigits_succ hcov (by omega), if_neg (by omega)]
      exact storeDigits_stop buf f i (by omega)
  | succ m ih =>
      intro f i n hn hi htop
      obtain ⟨i, rfl⟩ := Nat.exists_eq_add_of_le' (show 1 ≤ i by omega)
      rw [storeDigits_succ hcov (by omega)]
      split_ifs with hten
      · have hquot : n / 10 < 10 ^ (m + 1) := by
          rw [Nat.div_lt_iff_lt_mul (by omega)]
          exact hn
        obtain ⟨g, j, hrun, hlen, hlt, hds, hkeep⟩ :=
          ih (Function.update f i (digitChar (n % 10 : ℕ))) i (n / 10) hquot (by omega) (by omega)
        refine ⟨g, j, hrun, by push_cast; omega, by push_cast; omega, ?_, fun k hk => ?_⟩
        · have hlast : g i = digitChar (n % 10 : ℕ) := by
            rw [hkeep i (le_refl _), Function.update_self]
          rw [show ((i + 1 : ℕ) : ℤ) - 1 = i by omega, seg_concat hlt.le, hlast]
          have hall := hds.concat (by omega) (Nat.mod_lt n (by omega : 0 < 10))
          rwa [Nat.div_add_mod] at hall
        · rw [hkeep k (by push_cast at hk; omega)]
          exact Function.update_of_ne (by push_cast at hk; omega) _ _
      · obtain ⟨g, j, hrun, hlen, hrest⟩ :=
          storeDigits_stop buf f i (show n < 10 by omega)
        exact ⟨g, j, hrun, by push_cast; omega, hrest⟩

/-- The sign stands in front of the digits. -/
lemma storeSign_spec {g : ℤ → UInt8} {j : ℤ} (hcov : buf.Covers 0 top) (hj : 0 < j)
    (hjtop : j ≤ top) (neg : Bool) :
    ∃ g' i, storeSign (buf.withCells g) j neg = .ok (buf.withCells g', i) ∧ 0 ≤ i ∧ i ≤ j
      ∧ ∀ hi, j ≤ hi → seg g' i hi = (if neg then [ch '-'] else []) ++ seg g j hi := by
  cases neg with
  | false => exact ⟨g, j, rfl, by omega, le_refl j, fun hi _ => rfl⟩
  | true =>
      refine ⟨Function.update g (j - 1) (ch '-'), j - 1, ?_, by omega, by omega, fun hi hle => ?_⟩
      · simp [storeSign, (hcov.withCells g).store (show 0 ≤ j - 1 by omega) (by omega)]
      · rw [seg_cons (by omega), Function.update_self, show j - 1 + 1 = j by omega]
        congr 1
        exact seg_congr fun k hk _ => Function.update_of_ne (by omega) _ _

lemma writeInt_of_ne (stack : ℤ → UInt8) {n : ℤ} (h : FitsInt n) (hne : n ≠ INT_MIN) :
    ∃ bs, writeInt stack n = .ok bs ∧ IsDecimal bs n := by
  obtain ⟨hlo, hhi⟩ := h
  unfold INT_MIN at hlo hne
  unfold INT_MAX at hhi
  have hcov : (Block.ofCells 32 stack).Covers 0 31 := ⟨le_refl _, le_refl _⟩
  -- the number whose digits are stored
  have habs : (if n < 0 then toInt (-n) else n) = (n.natAbs : ℤ) := by
    split_ifs with hneg
    · rw [toInt_eq_self_iff.mpr ⟨by unfold INT_MIN; omega, by unfold INT_MAX; omega⟩]
      omega
    · omega
  obtain ⟨g, j, hdigits, hlen, hlt, hds, _⟩ :=
    storeDigits_spec hcov 9 (Function.update stack 31 0) 31 n.natAbs (by omega) (by omega)
      (by omega)
  obtain ⟨g', i, hsign, hi0, hij, hseg⟩ :=
    storeSign_spec (g := g) hcov (show 0 < j by omega) (by omega) (decide (n < 0))
  have hload := (hcov.withCells g').loadAll i (31 - i).toNat hi0 (by omega)
  rw [show i + ((31 - i).toNat : ℤ) - 1 = 30 by omega, Block.withCells_cells,
    hseg 30 (by omega)] at hload
  simp only [decide_eq_true_eq] at hload
  refine ⟨_, ?_, seg g j 30, rfl, hds⟩
  have hstore : (Block.ofCells 32 stack).store 31 0
      = .ok ((Block.ofCells 32 stack).withCells (Function.update stack 31 0)) :=
    hcov.store (by omega) (le_refl _)
  simp only [writeInt, decide_eq_true_eq, habs, hstore, ok_bind, hdigits, hsign, hload]

/-- The negation of `INT_MIN` wraps to `INT_MIN`, and `'0' - 8` is an opening bracket. -/
lemma writeInt_INT_MIN (stack : ℤ → UInt8) :
    writeInt stack INT_MIN = .ok [ch '-', ch '('] := rfl

lemma not_isDecimal_bracket : ¬ IsDecimal [ch '-', ch '('] INT_MIN := by
  rintro ⟨ds, hbs, hds⟩
  have hbracket : ds = [ch '('] := by simpa [INT_MIN] using hbs.symm
  have hdigit := hds.isDigit (ch '(') (by simp [hbracket])
  exact absurd hdigit (by decide)

/-- **`write_int` is exact**, save for `INT_MIN`. -/
theorem write_int_exact_iff (stack : ℤ → UInt8) (n : ℤ) (h : FitsInt n) :
    (∃ bs, writeInt stack n = .ok bs ∧ IsDecimal bs n) ↔ n ≠ INT_MIN := by
  constructor
  · rintro ⟨bs, hrun, hdec⟩ rfl
    obtain rfl := Except.ok.inj ((writeInt_INT_MIN stack).symm.trans hrun)
    exact not_isDecimal_bracket hdec
  · exact writeInt_of_ne stack h

theorem write_int_exact_iff_negative :
    FitsInt (-2147483647) ∧ ∃ bs, writeInt (fun _ => 0) (-2147483647) = .ok bs
      ∧ IsDecimal bs (-2147483647) :=
  ⟨by decide, (write_int_exact_iff _ _ (by decide)).mpr (by decide)⟩

/-- `"-("` is no decimal at all. -/
theorem write_int_garbles_INT_MIN :
    FitsInt INT_MIN ∧ writeInt (fun _ => 0) INT_MIN = .ok [ch '-', ch '(']
      ∧ ¬ ∃ bs, writeInt (fun _ => 0) INT_MIN = .ok bs ∧ IsDecimal bs INT_MIN := by
  refine ⟨by decide, writeInt_INT_MIN _, ?_⟩
  rintro ⟨bs, hrun, hdec⟩
  obtain rfl := Except.ok.inj ((writeInt_INT_MIN _).symm.trans hrun)
  exact not_isDecimal_bracket hdec

end CExercises.Signals
