import CExercises.Variadic.Def
import Mathlib.Algebra.Order.Ring.Int

/-!
# The two passes of `join` agree

The first pass adds up the lengths, the second needs room for the bytes; they are the same bytes,
and one more for the terminator.  What carries the second pass is where the terminator stands:
`Spells out t` says that the buffer begins with the bytes of `t` and a terminator.  No byte of `t`
is zero, so `strcat` finds that terminator and no other.  One `strcat` then moves it by the length
of its argument (`strcat_spec`), and a run by the sum of the lengths (`appendFrom_spec`).
-/

namespace CExercises.Variadic

section

variable {out : Block UInt8} {s t : CStr}

/-- The buffer begins with the string `t`, terminator included. -/
structure Spells (out : Block UInt8) (t : CStr) : Prop where
  covers : out.Covers 0 t.strlen
  cells : seg out.cells 0 t.strlen = t.bytes ++ [0]

/-! ## One `strcat` -/

/-- One step of the scan. -/
lemma findNul_of_load {c : UInt8} {i : ℤ} (hc : out.load i = .ok c) :
    findNul out i = if c = 0 then .ok i else findNul out (i + 1) := by
  rw [findNul]
  split
  · next e he =>
      rw [hc] at he
      cases he
  · next c' hc' =>
      rw [hc] at hc'
      cases hc'
      rfl

/-- The scan passes over the bytes of a string and stops at its terminator. -/
lemma findNul_eq : ∀ (bs : List UInt8) (i : ℤ), (∀ b ∈ bs, b ≠ 0) →
    out.Covers i (i + bs.length) → seg out.cells i (i + bs.length) = bs ++ [0] →
    findNul out i = .ok (i + bs.length)
  | [], i, _, hcov, hseg => by
      rw [seg_cons (by simp)] at hseg
      have hzero : out.cells i = 0 := (List.cons.inj hseg).1
      rw [findNul_of_load (hcov.load (le_refl i) (by simp)), if_pos hzero]
      simp
  | b :: bs, i, hnul, hcov, hseg => by
      have hlen : i + ((b :: bs).length : ℤ) = i + 1 + bs.length := by
        rw [List.length_cons]
        push_cast
        omega
      rw [hlen] at hcov hseg ⊢
      rw [seg_cons (by omega)] at hseg
      obtain ⟨hb, htail⟩ := List.cons.inj hseg
      have hne : out.cells i ≠ 0 := by
        rw [hb]
        exact hnul b List.mem_cons_self
      rw [findNul_of_load (hcov.load (le_refl i) (by omega)), if_neg hne]
      exact findNul_eq bs (i + 1) (fun x hx => hnul x (List.mem_cons_of_mem _ hx))
        (hcov.mono (by omega) (le_refl _)) htail

lemma Spells.findNul (h : Spells out t) : findNul out 0 = .ok (t.strlen : ℤ) := by
  have hlen : (0 : ℤ) + t.bytes.length = t.strlen := Int.zero_add _
  have hfind := @findNul_eq out t.bytes 0 t.nulFree
  rw [hlen] at hfind
  exact hfind h.covers h.cells

/-- The bytes before the terminator. -/
lemma Spells.before (h : Spells out t) : seg out.cells 0 (t.strlen - 1) = t.bytes := by
  have hcells := h.cells
  rw [seg_concat (Int.natCast_nonneg _)] at hcells
  exact List.append_inj_left' hcells rfl

/-- **`strcat`** leaves the string it finds in place and puts its argument where the terminator
was. -/
lemma strcat_spec (h : Spells out t) (hroom : (t.strlen + s.strlen : ℤ) ≤ out.last) :
    ∃ g, strcat out s = .ok (out.withCells g) ∧ Spells (out.withCells g) (t.append s) := by
  have hcov : out.Covers 0 (t.append s).strlen := by
    refine ⟨h.covers.first_le, ?_⟩
    rw [CStr.strlen_append]
    exact_mod_cast hroom
  have hlen : ((s.bytes ++ [0]).length : ℤ) = s.strlen + 1 := by
    rw [List.length_append]
    rfl
  have hend : (t.strlen : ℤ) + (s.bytes ++ [0]).length = (t.append s).strlen + 1 := by
    rw [hlen, CStr.strlen_append]
    push_cast
    omega
  have hstore := hcov.storeAll t.strlen (s.bytes ++ [0]) (Int.natCast_nonneg _) (le_of_eq hend)
  refine ⟨writeSeg out.cells t.strlen (s.bytes ++ [0]), ?_, hcov.withCells _, ?_⟩
  · rw [strcat, h.findNul, ok_bind, hstore]
  · -- the old string is in front of what is written
    have hold : seg (writeSeg out.cells t.strlen (s.bytes ++ [0])) 0 (t.strlen - 1) = t.bytes := by
      rw [← h.before]
      exact seg_congr fun k _ hk => writeSeg_outside _ _ _ _ (by omega)
    have hnew := seg_writeSeg out.cells t.strlen (s.bytes ++ [0])
    rw [hend, Int.add_sub_cancel] at hnew
    have hmid : (t.strlen : ℤ) - 1 ≤ (t.append s).strlen := by
      rw [CStr.strlen_append]
      omega
    rw [Block.withCells_cells, seg_append (by omega) hmid, hold, Int.sub_add_cancel, hnew,
      CStr.append_bytes, List.append_assoc]

/-! ## The loops -/

/-- The arguments, laid end to end. -/
def joined (args : List CStr) : List UInt8 := (args.map CStr.bytes).flatten

/-- The sum of their lengths. -/
def lengths (args : List CStr) : ℕ := (args.map CStr.strlen).sum

/-- The second loop, with `args` not yet appended and room for them. -/
lemma appendFrom_spec : ∀ (args : List CStr) (n i : ℤ) (out : Block UInt8) (t : CStr),
    i + args.length = n → Spells out t → (t.strlen + lengths args : ℤ) ≤ out.last →
    ∃ g t', appendFrom n i args out = .ok (out.withCells g) ∧ Spells (out.withCells g) t'
      ∧ t'.bytes = t.bytes ++ joined args
  | [], n, i, out, t, hn, h, _ => by
      have hdone : ¬ i < n := by
        rw [List.length_nil] at hn
        omega
      refine ⟨out.cells, t, ?_, h, by simp [joined]⟩
      rw [appendFrom, if_neg hdone]
      rfl
  | s :: args, n, i, out, t, hn, h, hroom => by
      rw [List.length_cons] at hn
      push_cast at hn
      have hsum : lengths (s :: args) = s.strlen + lengths args := List.sum_cons
      rw [hsum] at hroom
      push_cast at hroom
      rcases strcat_spec (s := s) h (by omega) with ⟨g₁, hcat, h₁⟩
      have hroom₁ : ((t.append s).strlen + lengths args : ℤ) ≤ (out.withCells g₁).last := by
        rw [CStr.strlen_append, Block.withCells_last]
        push_cast
        omega
      rcases appendFrom_spec args n (i + 1) _ _ (by omega) h₁ hroom₁ with ⟨g, t', hrun, h', hbytes⟩
      refine ⟨g, t', ?_, h', ?_⟩
      · rw [appendFrom, if_pos (by omega)]
        simp only [vaArg, ok_bind, hcat, hrun, Block.withCells_withCells]
      · rw [hbytes, CStr.append_bytes, List.append_assoc]
        rfl

/-- The first loop, as long as the sum fits a `size_t`. -/
lemma measureFrom_spec : ∀ (args : List CStr) (n i : ℤ) (total : UInt64),
    i + args.length = n → total.toNat + lengths args < 2 ^ 64 →
    ∃ r, measureFrom n i args total = .ok r ∧ r.toNat = total.toNat + lengths args
  | [], n, i, total, hn, _ => by
      have hdone : ¬ i < n := by
        rw [List.length_nil] at hn
        omega
      refine ⟨total, ?_, rfl⟩
      rw [measureFrom, if_neg hdone]
      rfl
  | s :: args, n, i, total, hn, hfits => by
      rw [List.length_cons] at hn
      push_cast at hn
      have hsum : lengths (s :: args) = s.strlen + lengths args := List.sum_cons
      rw [hsum] at hfits ⊢
      have hadd : (total + UInt64.ofNat s.strlen).toNat = total.toNat + s.strlen := by
        rw [UInt64.toNat_add, UInt64.toNat_ofNat', Nat.add_mod_mod, Nat.mod_eq_of_lt (by omega)]
      rcases measureFrom_spec args n (i + 1) (total + UInt64.ofNat s.strlen) (by omega)
        (by rw [hadd]; omega) with ⟨r, hrun, hr⟩
      refine ⟨r, ?_, by rw [hr, hadd]; omega⟩
      rw [measureFrom, if_pos (by omega)]
      simp only [vaArg, ok_bind, hrun]

/-! ## `join` -/

/-- A buffer of at least one byte, after `out[0] = '\0'`. -/
lemma spells_empty {n : ℤ} (hn : 0 < n) (f : ℤ → UInt8) :
    Spells ((Block.ofCells n f).withCells (Function.update f 0 0)) CStr.empty := by
  refine ⟨⟨le_refl 0, show 0 ≤ n - 1 by omega⟩, ?_⟩
  show seg (Function.update f 0 0) 0 0 = [0]
  rw [seg_cons (le_refl 0), seg_nil (by omega), Function.update_self]

/-- **The passes agree.**  The buffer has the bytes that were measured; the second pass stays inside
it and fills it to its last byte, which is the terminator. -/
theorem join_passes_agree (uninit : ℤ → UInt8) (args : List CStr)
    (hlen : (args.map CStr.strlen).sum < 2 ^ 64 - 1) :
    ∃ total out, measureFrom args.length 0 args 1 = .ok total
      ∧ join (some uninit) args.length args = .ok (some out)
      ∧ out.first = 0 ∧ out.last = (total.toNat : ℤ) - 1
      ∧ total.toNat = (args.map CStr.strlen).sum + 1
      ∧ seg out.cells 0 out.last = (args.map CStr.bytes).flatten ++ [0] := by
  have hone : (1 : UInt64).toNat = 1 := rfl
  rcases measureFrom_spec args args.length 0 1 (by omega) (by rw [hone, lengths]; omega) with
    ⟨total, hmeasure, htotal⟩
  rw [hone] at htotal
  have hcov : (Block.ofCells total.toNat uninit).Covers 0 (total.toNat - 1) :=
    ⟨le_refl 0, le_refl _⟩
  have hstore := hcov.store (x := 0) (le_refl 0) (by omega)
  rcases appendFrom_spec args args.length 0 _ _ (by omega) (spells_empty (by omega) uninit)
    (show ((0 : ℕ) + lengths args : ℤ) ≤ total.toNat - 1 by omega) with ⟨g, t', hrun, h, hbytes⟩
  have hlast : (t'.strlen : ℤ) = total.toNat - 1 := by
    have hsum : t'.strlen = lengths args := by
      rw [CStr.strlen, hbytes, lengths, joined, List.length_append, List.length_flatten,
        List.map_map]
      exact Nat.zero_add _
    omega
  refine ⟨total, (Block.ofCells total.toNat uninit).withCells g, hmeasure, ?_, rfl, rfl, ?_, ?_⟩
  · simp only [join, hmeasure, ok_bind, hstore]
    rw [show (Block.ofCells total.toNat uninit).cells = uninit from rfl, hrun]
    rfl
  · rw [htotal, lengths]
    omega
  · have hcells := h.cells
    rw [hlast, hbytes] at hcells
    exact hcells

/-- `join(4, "Hello", ", ", "world", "!")`. -/
theorem join_passes_agree_hello :
    let hello : CStr := ⟨[ch 'H', ch 'e', ch 'l', ch 'l', ch 'o'], by decide +kernel⟩
    let comma : CStr := ⟨[ch ',', ch ' '], by decide +kernel⟩
    let world : CStr := ⟨[ch 'w', ch 'o', ch 'r', ch 'l', ch 'd'], by decide +kernel⟩
    let mark : CStr := ⟨[ch '!'], by decide +kernel⟩
    ∃ out, join (some fun _ => 255) 4 [hello, comma, world, mark] = .ok (some out)
      ∧ out.last = 13
      ∧ seg out.cells 0 13 = "Hello, world!".toList.map ch ++ [0] := by
  intro hello comma world mark
  rcases join_passes_agree (fun _ => 255) [hello, comma, world, mark] (by decide) with
    ⟨total, out, -, hrun, -, hlast, htotal, hcells⟩
  have hthirteen : out.last = 13 := by
    rw [hlast, htotal]
    rfl
  rw [hthirteen] at hcells
  exact ⟨out, hrun, hthirteen, hcells⟩

end

end CExercises.Variadic
