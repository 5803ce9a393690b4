import CExercises.DynamicArray.GenVecDef
import Mathlib.Algebra.Group.Nat.Defs

/-!
# `GenVec` under allocation failures

`GenHolds v esize elems` is what a push preserves, whether its `realloc` succeeds or not: the
elements kept so far stand one after the other at the start of the block, and the block is as long
as `cap` says.  Growing moves the block and keeps its bytes; a failure keeps everything.  The
offsets do not wrap because the whole block was once asked for by its number of bytes.
-/

namespace CExercises.DynamicArray

variable {v v' : GenVec} {esize : ℕ} {elems : List (List UInt8)} {elem : List UInt8}

/-- The bytes `[i * esize, (i + 1) * esize)`. -/
def bytesAt (b : Block UInt8) (esize i : ℕ) : List UInt8 :=
  seg b.cells (i * esize : ℕ) (((i + 1) * esize : ℕ) - 1)

/-- The vector holds `elems`, within its capacity. -/
structure GenHolds (v : GenVec) (esize : ℕ) (elems : List (List UInt8)) : Prop where
  esize_eq : v.esize = esize
  len_eq : v.len = elems.length
  len_le : v.len ≤ v.cap
  bytes_lt : v.cap * esize < sizeMod
  cap_shape : v.cap = 0 ∨ ∃ k, v.cap = 4 * 2 ^ k
  block : v.cap = 0 ∨ ∃ b, v.data = some b ∧ b.first = 0 ∧ b.last = (v.cap * esize : ℕ) - 1
    ∧ ∀ i < v.len, elems[i]? = some (bytesAt b esize i)

lemma genHolds_new (esize : ℕ) : GenHolds (genvecNew esize) esize [] where
  esize_eq := rfl
  len_eq := rfl
  len_le := Nat.le_refl 0
  bytes_lt := by simp [genvecNew, sizeMod]
  cap_shape := .inl rfl
  block := .inl rfl

/-- The end of one element is not behind the end of a later one. -/
lemma mul_le_of_lt {i n : ℕ} (h : i < n) (esize : ℕ) : i * esize + esize ≤ n * esize := by
  rw [← Nat.succ_mul]
  exact Nat.mul_le_mul_right esize h

/-- The earlier elements end before the one at `n` starts. -/
lemma bytesAt_write_of_lt {i n : ℕ} (b : Block UInt8) (hi : i < n) (elem : List UInt8) :
    bytesAt (b.withCells (writeSeg b.cells (n * esize : ℕ) elem)) esize i = bytesAt b esize i := by
  have hbefore := mul_le_of_lt hi esize
  refine seg_congr fun k _ hk => writeSeg_outside _ _ _ _ (.inl ?_)
  rw [Nat.succ_mul] at hk
  omega

lemma bytesAt_write_self (b : Block UInt8) (n : ℕ) (helem : elem.length = esize) :
    bytesAt (b.withCells (writeSeg b.cells (n * esize : ℕ) elem)) esize n = elem := by
  have hlast : ((n + 1) * esize : ℕ) = (n * esize : ℕ) + (elem.length : ℤ) := by
    rw [Nat.succ_mul, helem]
    push_cast
    rfl
  rw [bytesAt, hlast]
  exact seg_writeSeg _ _ _

/-- The offset of an element inside the block does not wrap. -/
lemma GenHolds.offset_eq (h : GenHolds v esize elems) {i : ℕ} (hi : i < v.cap) :
    i * v.esize % sizeMod = i * esize := by
  rw [h.esize_eq]
  exact Nat.mod_eq_of_lt (by have := mul_le_of_lt hi esize; have := h.bytes_lt; omega)

/-- An element behind the others, where there is room for it. -/
lemma GenHolds.append (h : GenHolds v esize elems) (hpos : 0 < esize) (hroom : v.len < v.cap)
    (helem : elem.length = esize) :
    ∃ v', genvecAppend v elem = .ok (v', 0) ∧ GenHolds v' esize (elems ++ [elem]) := by
  obtain ⟨b, hdata, hfirst, hlast, hbytes⟩ := h.block.resolve_left (by omega)
  have hend := mul_le_of_lt hroom esize
  have hlen : (v.len + 1) % sizeMod = v.len + 1 := by
    have := Nat.le_mul_of_pos_right v.cap hpos
    have := h.bytes_lt
    exact Nat.mod_eq_of_lt (by omega)
  have hcov : b.Covers 0 ((v.cap * esize : ℕ) - 1) := ⟨le_of_eq hfirst, le_of_eq hlast.symm⟩
  have hstore := hcov.storeAll (v.len * esize : ℕ) elem (by omega) (by omega)
  have hcopy : genvecAppend v elem = .ok
      ({ v with data := some (b.withCells (writeSeg b.cells (v.len * esize : ℕ) elem))
                len := v.len + 1 }, 0) := by
    have hshort : ¬ elem.length < v.esize := by
      rw [helem, h.esize_eq]
      omega
    have htake : elem.take v.esize = elem := by
      rw [h.esize_eq, ← helem, List.take_length]
    simp only [genvecAppend, h.offset_eq hroom, memcpy, hdata, if_neg hshort, htake, hstore,
      ok_bind, pure_eq_ok, hlen]
  refine ⟨_, hcopy, h.esize_eq, by simp [h.len_eq], hroom, h.bytes_lt, h.cap_shape, .inr ⟨_, rfl,
    hfirst, hlast, fun i hi => ?_⟩⟩
  rcases Nat.lt_succ_iff_lt_or_eq.mp hi with hi | rfl
  · rw [List.getElem?_append_left (by rw [← h.len_eq]; exact hi), hbytes i hi,
      bytesAt_write_of_lt b hi]
  · rw [bytesAt_write_self b v.len helem, h.len_eq, List.getElem?_concat_length]

/-- `newcap` does not wrap, since an element has at least one byte. -/
lemma newcap_eq (hpos : 0 < v.esize) (hbytes : byteCount v < sizeMod) :
    newcap v = if v.cap ≠ 0 then v.cap * 2 else 4 := by
  have hle := Nat.le_mul_of_pos_right (if v.cap ≠ 0 then v.cap * 2 else 4) hpos
  unfold byteCount at hbytes
  unfold newcap
  split_ifs at hle hbytes ⊢ with hcap
  · exact Nat.mod_eq_of_lt (Nat.lt_of_le_of_lt hle hbytes)
  · rfl

/-- A full vector grows. -/
lemma GenHolds.grow (h : GenHolds v esize elems) (hpos : 0 < esize) (hfull : v.len = v.cap)
    (hbytes : byteCount v < sizeMod) (fresh : ℤ → UInt8) :
    v.len < newcap v
      ∧ GenHolds { v with data := some (realloc v.data (newcap v * v.esize % sizeMod : ℕ) fresh)
                          cap := newcap v } esize elems := by
  have hnew := newcap_eq (by rw [h.esize_eq]; exact hpos) hbytes
  have hcount : newcap v * esize = byteCount v := by rw [hnew, byteCount, h.esize_eq]
  have hmod : newcap v * v.esize % sizeMod = newcap v * esize := by
    rw [h.esize_eq]
    exact Nat.mod_eq_of_lt (by omega)
  have hroom : v.len < newcap v := by
    rw [hnew]
    split_ifs <;> omega
  refine ⟨hroom, h.esize_eq, h.len_eq, Nat.le_of_lt hroom, by simp only; omega, .inr ?_, .inr ?_⟩
  · simp only [hnew]
    split_ifs with hcap
    · obtain ⟨k, hk⟩ := h.cap_shape.resolve_left hcap
      exact ⟨k + 1, by rw [hk, Nat.pow_succ]; omega⟩
    · exact ⟨0, rfl⟩
  · refine ⟨_, rfl, rfl, by rw [hmod]; rfl, fun i hi => ?_⟩
    -- there is something to keep only if there was a block
    obtain ⟨b, hdata, hfirst, hlast, hold⟩ := h.block.resolve_left (by simp only at hi; omega)
    have hend := mul_le_of_lt (show i < v.cap by simp only at hi; omega) esize
    rw [hold i hi, hdata]
    refine congrArg some (seg_realloc ⟨by omega, ?_⟩).symm
    rw [Nat.succ_mul]
    omega

/-- **One push**, with either answer of `realloc`. -/
lemma GenHolds.call (h : GenHolds v esize elems) (hpos : 0 < esize) (p : PushOf)
    (helem : p.elem.length = esize) (hbytes : v.len = v.cap → byteCount v < sizeMod) :
    (∃ v', genvecCall v p = .ok (v', 0) ∧ GenHolds v' esize (elems ++ [p.elem]))
      ∨ genvecCall v p = .ok (v, -1) := by
  by_cases hfull : v.len = v.cap
  · cases hp : p.answer with
    | none => exact .inr (by simp [genvecCall, genvecPush, hfull, hp])
    | some fresh =>
        obtain ⟨hroom, hgrown⟩ := h.grow hpos hfull (hbytes hfull) fresh
        obtain ⟨v', hrun, hv'⟩ := hgrown.append hpos hroom helem
        exact .inl ⟨v', by simp [genvecCall, genvecPush, hfull, hp, ← hrun], hv'⟩
  · have hroom : v.len < v.cap := Nat.lt_of_le_of_ne h.len_le hfull
    obtain ⟨v', hrun, hv'⟩ := h.append hpos hroom helem
    exact .inl ⟨v', by simp [genvecCall, genvecPush, hfull, hrun], hv'⟩

/-- A whole run. -/
lemma GenHolds.run (hpos : 0 < esize) (ps : List PushOf) (h : GenHolds v esize elems)
    (helem : ∀ p ∈ ps, p.elem.length = esize) (hbytes : BytesFit v ps) :
    ∃ v' rets, runCalls genvecCall v ps = .ok (v', rets)
      ∧ GenHolds v' esize (elems ++ kept ps rets) := by
  induction ps generalizing v elems with
  | nil => exact ⟨v, [], rfl, by simpa [kept] using h⟩
  | cons p ps ih =>
      have hp := helem p List.mem_cons_self
      have hps : ∀ q ∈ ps, q.elem.length = esize := fun q hq => helem q (List.mem_cons_of_mem p hq)
      rcases h.call hpos p hp hbytes.1 with ⟨v₁, hcall, hv₁⟩ | hcall
      · obtain ⟨v', rets, hrun, hv'⟩ := ih hv₁ hps (hbytes.2 _ _ hcall)
        exact ⟨v', 0 :: rets, runCalls_cons_ok hcall hrun, by simpa [kept] using hv'⟩
      · obtain ⟨v', rets, hrun, hv'⟩ := ih h hps (hbytes.2 _ _ hcall)
        exact ⟨v', -1 :: rets, runCalls_cons_ok hcall hrun, by simpa [kept] using hv'⟩

lemma genvecAppend_ret {ret : ℤ} (h : genvecAppend v elem = .ok (v', ret)) : ret = 0 := by
  unfold genvecAppend at h
  cases hcopy : memcpy v.data (v.len * v.esize % sizeMod : ℕ) elem v.esize with
  | error e =>
      rw [hcopy] at h
      cases h
  | ok b =>
      rw [hcopy] at h
      cases h
      rfl

/-- Only a failed `realloc` of a full vector returns `-1`, and then nothing has been touched. -/
lemma genvecCall_fail {p : PushOf} (h : genvecCall v p = .ok (v', -1)) :
    v' = v ∧ v.len = v.cap ∧ p.answer = none := by
  simp only [genvecCall, genvecPush] at h
  split_ifs at h with hfull
  · split at h
    · rename_i hanswer
      exact ⟨(congrArg Prod.fst (Except.ok.inj h)).symm, hfull, hanswer⟩
    · exact absurd (genvecAppend_ret h) (by decide)
  · exact absurd (genvecAppend_ret h) (by decide)

/-- **`GenVec` survives every failure of `realloc`.** -/
theorem genvec_survives_failures (esize : ℕ) (hpos : 1 ≤ esize) (ps : List PushOf)
    (helem : ∀ p ∈ ps, p.elem.length = esize) (hbytes : BytesFit (genvecNew esize) ps) :
    ∃ v rets, runCalls genvecCall (genvecNew esize) ps = .ok (v, rets)
      ∧ v.len ≤ v.cap ∧ (v.cap = 0 ∨ ∃ k, v.cap = 4 * 2 ^ k)
      ∧ v.len = (kept ps rets).length
      ∧ (∀ i < v.len, ∃ b, v.data = some b ∧ genvecGet v i = some (i * esize)
          ∧ b.loadAll (i * esize : ℕ) esize = .ok (bytesAt b esize i)
          ∧ (kept ps rets)[i]? = some (bytesAt b esize i))
      ∧ (∀ i, v.len ≤ i → genvecGet v i = none)
      ∧ ∀ p v', genvecCall v p = .ok (v', -1) → v' = v ∧ v.len = v.cap ∧ p.answer = none := by
  obtain ⟨v, rets, hrun, hv⟩ := (genHolds_new esize).run hpos ps helem hbytes
  rw [List.nil_append] at hv
  refine ⟨v, rets, hrun, hv.len_le, hv.cap_shape, hv.len_eq, fun i hi => ?_, fun i hi => ?_, ?_⟩
  · obtain ⟨b, hdata, hfirst, hlast, hold⟩ := hv.block.resolve_left (by have := hv.len_le; omega)
    have hcap : i < v.cap := Nat.lt_of_lt_of_le hi hv.len_le
    have hend := mul_le_of_lt hcap esize
    have hcov : b.Covers 0 ((v.cap * esize : ℕ) - 1) := ⟨le_of_eq hfirst, le_of_eq hlast.symm⟩
    refine ⟨b, hdata, ?_, ?_, hold i hi⟩
    · rw [genvecGet, if_neg (by omega), hv.offset_eq hcap]
    · rw [hcov.loadAll _ esize (by omega) (by omega), bytesAt, Nat.succ_mul]
      push_cast
      rfl
  · exact if_pos hi
  · intro p v' hcall
    exact genvecCall_fail hcall

/-- Elements of two bytes; the first allocation fails, the second succeeds, no third is needed. -/
theorem genvec_survives_failures_retry :
    let ps : List PushOf := [⟨[1, 2], none⟩, ⟨[3, 4], some fun _ => 0⟩, ⟨[5, 6], none⟩]
    (∀ p ∈ ps, p.elem.length = 2) ∧ BytesFit (genvecNew 2) ps
      ∧ ∃ v b, runCalls genvecCall (genvecNew 2) ps = .ok (v, [-1, 0, 0]) ∧ v.len = 2
        ∧ v.data = some b ∧ genvecGet v 1 = some 2 ∧ b.loadAll 2 2 = .ok [5, 6] := by
  intro ps
  have helem : ∀ p ∈ ps, p.elem.length = 2 := by simp [ps]
  have hbytes : BytesFit (genvecNew 2) ps := by
    refine ⟨fun _ => by decide, ?_⟩
    rintro v ret ⟨rfl⟩
    refine ⟨fun _ => by decide, ?_⟩
    rintro v ret ⟨rfl⟩
    exact ⟨fun hfull => absurd hfull (by decide), fun _ _ _ => trivial⟩
  obtain ⟨v, rets, hrun, _, _, hlen, hget, _⟩ :=
    genvec_survives_failures 2 (by decide) ps helem hbytes
  have hrets : (runCalls genvecCall (genvecNew 2) ps).toOption.map Prod.snd = some [-1, 0, 0] := by
    decide +kernel
  rw [hrun] at hrets
  have hrets : rets = [-1, 0, 0] := Option.some.inj hrets
  subst hrets
  have hlen : v.len = 2 := hlen
  obtain ⟨b, hdata, hoff, hload, hkept⟩ := hget 1 (by omega)
  have hsecond : bytesAt b 2 1 = [5, 6] := (Option.some.inj hkept).symm
  rw [hsecond] at hload
  exact ⟨helem, hbytes, v, b, hrun, hlen, hdata, hoff, hload⟩

end CExercises.DynamicArray
