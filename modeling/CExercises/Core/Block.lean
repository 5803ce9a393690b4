import CExercises.Core.Memory
import Mathlib.Logic.Equiv.Basic
import Mathlib.Data.List.Perm.Basic
import Mathlib.Data.List.Nodup
import Mathlib.Logic.Relation
import Mathlib.Data.Int.Order.Basic

/-!
# Blocks of cells

A C array is a block of cells, and a pointer into it may be read and written only at the indices of
the block.  `Block` keeps the first and the last of these indices, so that every access outside
stops the program.  Indices are integers: `arr[j]` with `j = -1` is a fault, not a wrap-around.

Because the bounds travel with the block, saying that a program returns *on a smaller block* is
saying that it touches no other cell; no separate log of accesses is needed.

Reorderings come in two strengths.  `Rearranges lo hi f g` says that `g` is `f` with the cells of
`lo..hi` permuted.  `AdjSwaps` says more: that `g` is reached from `f` by exchanging neighbours that
were strictly out of order, which keeps equal neighbours apart.
-/

namespace CExercises

/-- The cells that may be accessed, `first` and `last` included, and what they hold. -/
structure Block (α : Type) where
  first : ℤ
  last : ℤ
  cells : ℤ → α

namespace Block

variable {α : Type}

/-- `arr[i]` as a value. -/
def load (a : Block α) (i : ℤ) : Except Stop α :=
  if a.first ≤ i ∧ i ≤ a.last then .ok (a.cells i) else .error .outOfBounds

/-- The same block holding `f`. -/
def withCells (a : Block α) (f : ℤ → α) : Block α := { a with cells := f }

/-- `arr[i] = x`. -/
def store (a : Block α) (i : ℤ) (x : α) : Except Stop (Block α) :=
  if a.first ≤ i ∧ i ≤ a.last then .ok (a.withCells (Function.update a.cells i x))
  else .error .outOfBounds

/-- Exchange two cells through a temporary. -/
def swap (a : Block α) (i j : ℤ) : Except Stop (Block α) := do
  let t ← a.load i
  let y ← a.load j
  let a ← a.store i y
  a.store j t

/-- Store a list of values from index `k` on. -/
def storeAll (a : Block α) : ℤ → List α → Except Stop (Block α)
  | _, [] => .ok a
  | k, x :: xs => do
      let a ← a.store k x
      storeAll a (k + 1) xs

/-- The `n` values from index `k` on. -/
def loadAll (a : Block α) : ℤ → ℕ → Except Stop (List α)
  | _, 0 => .ok []
  | k, n + 1 => do
      let x ← a.load k
      let xs ← loadAll a (k + 1) n
      return x :: xs

/-- A block of `n` cells, as `malloc` or a declaration makes one. -/
def ofCells (n : ℤ) (f : ℤ → α) : Block α := ⟨0, n - 1, f⟩

/-- The indices `lo..hi` all belong to the block. -/
structure Covers (a : Block α) (lo hi : ℤ) : Prop where
  first_le : a.first ≤ lo
  le_last : hi ≤ a.last

section

variable {a : Block α} {f g : ℤ → α} {i j lo hi : ℤ} {x : α}

@[simp] lemma withCells_first : (a.withCells f).first = a.first := rfl

@[simp] lemma withCells_last : (a.withCells f).last = a.last := rfl

@[simp] lemma withCells_cells : (a.withCells f).cells = f := rfl

@[simp] lemma withCells_withCells : (a.withCells f).withCells g = a.withCells g := rfl

@[simp] lemma withCells_self : a.withCells a.cells = a := rfl

lemma Covers.withCells (h : a.Covers lo hi) (f : ℤ → α) : (a.withCells f).Covers lo hi :=
  ⟨h.1, h.2⟩

lemma Covers.mono (h : a.Covers lo hi) (hlo : lo ≤ i) (hhi : j ≤ hi) : a.Covers i j :=
  ⟨le_trans h.1 hlo, le_trans hhi h.2⟩

lemma Covers.load (h : a.Covers lo hi) (hlo : lo ≤ i) (hhi : i ≤ hi) :
    a.load i = .ok (a.cells i) :=
  if_pos ⟨le_trans h.1 hlo, le_trans hhi h.2⟩

lemma Covers.store (h : a.Covers lo hi) (hlo : lo ≤ i) (hhi : i ≤ hi) :
    a.store i x = .ok (a.withCells (Function.update a.cells i x)) :=
  if_pos ⟨le_trans h.1 hlo, le_trans hhi h.2⟩

lemma Covers.swap (h : a.Covers lo hi) (hi₁ : lo ≤ i) (hi₂ : i ≤ hi) (hj₁ : lo ≤ j)
    (hj₂ : j ≤ hi) : a.swap i j = .ok (a.withCells (a.cells ∘ Equiv.swap i j)) := by
  have h' := h.withCells (Function.update a.cells i (a.cells j))
  simp only [Block.swap, h.load hi₁ hi₂, h.load hj₁ hj₂, h.store hi₁ hi₂, h'.store hj₁ hj₂, ok_bind,
    withCells_withCells, withCells_cells]
  congr 2
  funext k
  simp only [Function.update_apply, Function.comp_apply, Equiv.swap_apply_def]
  split_ifs with hj hi hi
  · rw [← hi, hj]
  · rfl
  · rfl
  · rfl

/-- An access that does not fault is inside the block. -/
lemma load_bounds (h : a.load i = .ok x) : a.first ≤ i ∧ i ≤ a.last := by
  unfold Block.load at h
  split_ifs at h with hb
  exact hb

lemma store_bounds {a' : Block α} (h : a.store i x = .ok a') : a.first ≤ i ∧ i ≤ a.last := by
  unfold Block.store at h
  split_ifs at h with hb
  exact hb

end

/-! A command that returns on a block does the same on every block `b` with these cells and more:
the three lemmas below say so for a load, a store and an exchange. -/

section

variable {a a' b : Block α} {i j : ℤ} {x : α}

lemma Covers.load_widen (h : b.Covers a.first a.last) (hx : a.load i = .ok x) :
    (b.withCells a.cells).load i = .ok x := by
  obtain ⟨hlo, hhi⟩ := load_bounds hx
  have hcov : a.Covers a.first a.last := ⟨le_refl _, le_refl _⟩
  rw [(h.withCells a.cells).load hlo hhi, ← hx, hcov.load hlo hhi]
  rfl

lemma Covers.store_widen (h : b.Covers a.first a.last) (hs : a.store i x = .ok a') :
    (b.withCells a.cells).store i x = .ok (b.withCells a'.cells)
      ∧ b.Covers a'.first a'.last := by
  obtain ⟨hlo, hhi⟩ := store_bounds hs
  have hcov : a.Covers a.first a.last := ⟨le_refl _, le_refl _⟩
  rw [hcov.store hlo hhi] at hs
  cases hs
  exact ⟨(h.withCells a.cells).store hlo hhi, h⟩

lemma Covers.swap_widen (h : b.Covers a.first a.last) (hs : a.swap i j = .ok a') :
    (b.withCells a.cells).swap i j = .ok (b.withCells a'.cells)
      ∧ b.Covers a'.first a'.last := by
  simp only [Block.swap, bind_eq_ok] at hs
  rcases hs with ⟨t, ht, y, hy, a₁, hs₁, hs₂⟩
  obtain ⟨hrun₁, hcov₁⟩ := h.store_widen hs₁
  obtain ⟨hrun₂, hcov₂⟩ := hcov₁.store_widen hs₂
  refine ⟨?_, hcov₂⟩
  simp only [Block.swap, h.load_widen ht, h.load_widen hy, hrun₁, hrun₂, ok_bind]

end

end Block

/-! ## Segments -/

section

variable {α : Type} {f g h : ℤ → α} {lo hi mid k : ℤ}

/-- The cells `lo..hi` in order. -/
def seg (f : ℤ → α) (lo hi : ℤ) : List α :=
  (List.range (hi + 1 - lo).toNat).map fun k : ℕ => f (lo + k)

lemma length_seg (f : ℤ → α) (lo hi : ℤ) : (seg f lo hi).length = (hi + 1 - lo).toNat := by
  simp [seg]

lemma seg_nil (h : hi < lo) : seg f lo hi = [] := by
  have : (hi + 1 - lo).toNat = 0 := by omega
  rw [seg, this]
  rfl

lemma seg_cons (h : lo ≤ hi) : seg f lo hi = f lo :: seg f (lo + 1) hi := by
  have hlen : (hi + 1 - lo).toNat = (hi + 1 - (lo + 1)).toNat + 1 := by omega
  rw [seg, hlen, List.range_succ_eq_map, List.map_cons, List.map_map, seg]
  refine congrArg₂ List.cons (congrArg f (by omega)) (List.map_congr_left fun k _ => ?_)
  show f (lo + ((k + 1 : ℕ) : ℤ)) = f (lo + 1 + k)
  congr 1
  omega

lemma seg_congr (h : ∀ k, lo ≤ k → k ≤ hi → f k = g k) : seg f lo hi = seg g lo hi := by
  refine List.map_congr_left fun k hk => ?_
  have := List.mem_range.mp hk
  exact h _ (by omega) (by omega)

lemma mem_seg {x : α} : x ∈ seg f lo hi ↔ ∃ k, lo ≤ k ∧ k ≤ hi ∧ f k = x := by
  simp only [seg, List.mem_map, List.mem_range]
  constructor
  · rintro ⟨k, hk, rfl⟩
    exact ⟨lo + k, by omega, by omega, rfl⟩
  · rintro ⟨k, hlo, hhi, rfl⟩
    exact ⟨(k - lo).toNat, by omega, by congr 1; omega⟩

lemma seg_append (h₁ : lo ≤ mid + 1) (h₂ : mid ≤ hi) :
    seg f lo hi = seg f lo mid ++ seg f (mid + 1) hi := by
  -- the left part shrinks from its front
  induction hn : (mid + 1 - lo).toNat generalizing lo with
  | zero =>
      have hlo : lo = mid + 1 := by omega
      rw [hlo, seg_nil (show mid < mid + 1 by omega)]
      rfl
  | succ n ih =>
      rw [seg_cons (show lo ≤ hi by omega), seg_cons (show lo ≤ mid by omega),
        ih (by omega) (by omega)]
      rfl

lemma seg_concat (h : lo ≤ hi) : seg f lo hi = seg f lo (hi - 1) ++ [f hi] := by
  have hsingle : seg f (hi - 1 + 1) hi = [f hi] := by
    rw [show hi - 1 + 1 = hi by omega, seg_cons (le_refl hi), seg_nil (by omega)]
  rw [seg_append (show lo ≤ hi - 1 + 1 by omega) (by omega), hsingle]

/-- Equal segments hold equal cells. -/
lemma eq_of_seg_eq (h : seg f lo hi = seg g lo hi) (hlo : lo ≤ k) (hhi : k ≤ hi) : f k = g k := by
  induction hn : (k - lo).toNat generalizing lo with
  | zero =>
      have hk : k = lo := by omega
      rw [seg_cons (f := f) (by omega), seg_cons (f := g) (by omega)] at h
      rw [hk]
      exact (List.cons.inj h).1
  | succ n ih =>
      rw [seg_cons (f := f) (by omega), seg_cons (f := g) (by omega)] at h
      exact ih (List.cons.inj h).2 (by omega) (by omega)

end

/-! ## Reorderings -/

section

variable {α : Type} {f g h : ℤ → α} {lo hi i j k : ℤ}

/-- `g` is `f` with the cells `lo..hi` permuted. -/
def Rearranges (lo hi : ℤ) (f g : ℤ → α) : Prop :=
  ∃ σ : Equiv.Perm ℤ, (∀ k, k < lo ∨ hi < k → σ k = k) ∧ g = f ∘ σ

lemma Rearranges.refl (lo hi : ℤ) (f : ℤ → α) : Rearranges lo hi f f :=
  ⟨Equiv.refl ℤ, fun _ _ => rfl, rfl⟩

lemma Rearranges.trans (h₁ : Rearranges lo hi f g) (h₂ : Rearranges lo hi g h) :
    Rearranges lo hi f h := by
  rcases h₁ with ⟨σ, hσ, rfl⟩
  rcases h₂ with ⟨τ, hτ, rfl⟩
  refine ⟨τ.trans σ, fun k hk => ?_, rfl⟩
  rw [Equiv.trans_apply, hτ k hk, hσ k hk]

lemma Rearranges.mono (h : Rearranges i j f g) (hlo : lo ≤ i) (hhi : j ≤ hi) :
    Rearranges lo hi f g := by
  rcases h with ⟨σ, hσ, rfl⟩
  exact ⟨σ, fun k hk => hσ k (by omega), rfl⟩

lemma rearranges_swap (f : ℤ → α) (hi₁ : lo ≤ i) (hi₂ : i ≤ hi) (hj₁ : lo ≤ j) (hj₂ : j ≤ hi) :
    Rearranges lo hi f (f ∘ Equiv.swap i j) :=
  ⟨Equiv.swap i j, fun _ hk => Equiv.swap_apply_of_ne_of_ne (by omega) (by omega), rfl⟩

/-- Cells outside the range are left alone. -/
lemma Rearranges.outside (h : Rearranges lo hi f g) (hk : k < lo ∨ hi < k) : g k = f k := by
  rcases h with ⟨σ, hσ, rfl⟩
  rw [Function.comp_apply, hσ k hk]

/-- Every cell of the range now holds what some cell of the range held. -/
lemma Rearranges.inside (h : Rearranges lo hi f g) (hlo : lo ≤ k) (hhi : k ≤ hi) :
    ∃ l, lo ≤ l ∧ l ≤ hi ∧ g k = f l := by
  rcases h with ⟨σ, hσ, rfl⟩
  refine ⟨σ k, ?_, ?_, rfl⟩
  · by_contra hlt
    have hfix := hσ (σ k) (Or.inl (by omega))
    have := σ.injective hfix
    omega
  · by_contra hgt
    have hfix := hσ (σ k) (Or.inr (by omega))
    have := σ.injective hfix
    omega

/-- What holds of every cell of the range still does. -/
lemma Rearranges.forall_inside {P : α → Prop} (h : Rearranges lo hi f g)
    (hP : ∀ k, lo ≤ k → k ≤ hi → P (f k)) : ∀ k, lo ≤ k → k ≤ hi → P (g k) := by
  intro k hlo hhi
  rcases h.inside hlo hhi with ⟨l, hl₁, hl₂, heq⟩
  rw [heq]
  exact hP l hl₁ hl₂

lemma nodup_seg_id : (seg (fun k => k) lo hi).Nodup := by
  refine List.Nodup.map (fun x y hxy => ?_) List.nodup_range
  have : lo + (x : ℤ) = lo + y := hxy
  omega

lemma Rearranges.perm (h : Rearranges lo hi f g) : (seg g lo hi).Perm (seg f lo hi) := by
  rcases h with ⟨σ, hσ, rfl⟩
  have hmap : ∀ u : ℤ → α, seg u lo hi = (seg (fun k => k) lo hi).map u := by
    intro u
    simp [seg]
  have hσseg : (seg (fun k => σ k) lo hi).Perm (seg (fun k => k) lo hi) := by
    have hmap' : seg (fun k => σ k) lo hi = (seg (fun k => k) lo hi).map σ := by simp [seg]
    have hnodup : (seg (fun k => σ k) lo hi).Nodup := by
      rw [hmap']
      exact nodup_seg_id.map σ.injective
    refine (List.perm_ext_iff_of_nodup hnodup nodup_seg_id).mpr fun x => ?_
    rw [mem_seg, mem_seg]
    constructor
    · rintro ⟨k, hlo, hhi, rfl⟩
      rcases Rearranges.inside (f := fun k => k) ⟨σ, hσ, rfl⟩ hlo hhi with ⟨l, hl₁, hl₂, heq⟩
      exact ⟨l, hl₁, hl₂, heq.symm⟩
    · rintro ⟨k, hlo, hhi, rfl⟩
      have hinv : ∀ k, k < lo ∨ hi < k → σ.symm k = k := by
        intro k hk
        rw [Equiv.symm_apply_eq, hσ k hk]
      rcases Rearranges.inside (f := fun k => k) ⟨σ.symm, hinv, rfl⟩ hlo hhi with
        ⟨l, hl₁, hl₂, heq⟩
      refine ⟨l, hl₁, hl₂, ?_⟩
      have heq' : σ.symm k = l := heq
      rw [← heq', Equiv.apply_symm_apply]
  have hcomp : seg (f ∘ σ) lo hi = (seg (fun k => σ k) lo hi).map f := by simp [seg]
  rw [hcomp, hmap f]
  exact hσseg.map f

end

/-! ## Order -/

section

variable {α : Type} {key : α → ℤ} {f g : ℤ → α} {lo hi i j k : ℤ}

/-- The cells `lo..hi` ascend. -/
def Ascends (key : α → ℤ) (lo hi : ℤ) (f : ℤ → α) : Prop :=
  ∀ k l, lo ≤ k → k ≤ l → l ≤ hi → key (f k) ≤ key (f l)

lemma ascends_of_le (h : hi ≤ lo) : Ascends key lo hi f := by
  intro k l hk hkl hl
  have : k = l := by omega
  rw [this]

/-- It is enough to compare neighbours. -/
lemma ascends_of_neighbours (h : ∀ k, lo ≤ k → k < hi → key (f k) ≤ key (f (k + 1))) :
    Ascends key lo hi f := by
  intro k l hk hkl hl
  induction hn : (l - k).toNat generalizing l with
  | zero =>
      have : k = l := by omega
      rw [this]
  | succ n ih =>
      have hprev := ih (l - 1) (by omega) (by omega) (by omega)
      have hlast := h (l - 1) (by omega) (by omega)
      rw [show l - 1 + 1 = l by omega] at hlast
      exact le_trans hprev hlast

lemma Ascends.pairwise_seg (h : Ascends key lo hi f) :
    (seg f lo hi).Pairwise fun x y => key x ≤ key y := by
  refine List.pairwise_map.mpr (List.pairwise_lt_range.imp_of_mem fun {x y} hx hy hxy => ?_)
  have := List.mem_range.mp hy
  exact h _ _ (by omega) (by omega) (by omega)

lemma ascends_of_pairwise_seg (h : (seg f lo hi).Pairwise fun x y => key x ≤ key y) :
    Ascends key lo hi f := by
  intro k l hk hkl hl
  have hk' : lo ≤ k + 1 := by omega
  rcases Int.lt_or_eq_of_le hkl with hlt | rfl
  · rw [seg_append hk' (show k ≤ hi by omega), List.pairwise_append] at h
    exact h.2.2 _ (mem_seg.mpr ⟨k, hk, le_refl k, rfl⟩) _ (mem_seg.mpr ⟨l, by omega, hl, rfl⟩)
  · exact le_refl _

/-- Two ascending ranges around a cell that bounds them both. -/
lemma ascends_join {p : ℤ} (hleft : Ascends key lo (p - 1) f) (hright : Ascends key (p + 1) hi f)
    (hbelow : ∀ k, lo ≤ k → k ≤ p - 1 → key (f k) ≤ key (f p))
    (habove : ∀ k, p + 1 ≤ k → k ≤ hi → key (f p) ≤ key (f k)) : Ascends key lo hi f := by
  intro k l hk hkl hl
  rcases lt_trichotomy l p with hlp | rfl | hlp
  · exact hleft k l hk hkl (by omega)
  · by_cases hkl' : k = l
    · rw [hkl']
    · exact hbelow k hk (by omega)
  · rcases lt_trichotomy k p with hkp | rfl | hkp
    · exact le_trans (hbelow k hk (by omega)) (habove l (by omega) hl)
    · exact habove l (by omega) hl
    · exact hright k l (by omega) hkl hl

lemma Ascends.congr (h : Ascends key lo hi f) (hfg : ∀ k, lo ≤ k → k ≤ hi → g k = f k) :
    Ascends key lo hi g := by
  intro k l hk hkl hl
  rw [hfg k hk (by omega), hfg l (by omega) hl]
  exact h k l hk hkl hl

/-- The cells `f` with the list `xs` written over them from index `k` on. -/
def writeSeg (f : ℤ → α) : ℤ → List α → ℤ → α
  | _, [] => f
  | k, x :: xs => writeSeg (Function.update f k x) (k + 1) xs

lemma writeSeg_append : ∀ (f : ℤ → α) (k : ℤ) (xs ys : List α),
    writeSeg (writeSeg f k xs) (k + xs.length) ys = writeSeg f k (xs ++ ys)
  | f, k, [], ys => by simp [writeSeg]
  | f, k, x :: xs, ys => by
      have ih := writeSeg_append (Function.update f k x) (k + 1) xs ys
      rw [show k + ((x :: xs).length : ℤ) = k + 1 + xs.length by
        rw [List.length_cons]; push_cast; omega]
      exact ih

lemma writeSeg_outside : ∀ (f : ℤ → α) (k l : ℤ) (xs : List α), l < k ∨ k + xs.length ≤ l →
    writeSeg f k xs l = f l
  | f, k, l, [], _ => rfl
  | f, k, l, x :: xs, h => by
      rw [List.length_cons] at h
      push_cast at h
      rw [writeSeg, writeSeg_outside _ (k + 1) l xs (by omega), Function.update_of_ne (by omega)]

lemma seg_writeSeg : ∀ (f : ℤ → α) (k : ℤ) (xs : List α),
    seg (writeSeg f k xs) k (k + xs.length - 1) = xs
  | f, k, [] => by
      rw [List.length_nil]
      exact seg_nil (by omega)
  | f, k, x :: xs => by
      have ih := seg_writeSeg (Function.update f k x) (k + 1) xs
      rw [List.length_cons, seg_cons (by push_cast; omega), writeSeg,
        writeSeg_outside _ (k + 1) k xs (by omega), Function.update_self]
      rw [show k + ((xs.length + 1 : ℕ) : ℤ) - 1 = k + 1 + xs.length - 1 by push_cast; omega, ih]

lemma Block.Covers.storeAll : ∀ {a : Block α} (k : ℤ) (xs : List α), a.Covers lo hi → lo ≤ k →
    k + xs.length ≤ hi + 1 → a.storeAll k xs = .ok (a.withCells (writeSeg a.cells k xs))
  | a, k, [], _, _, _ => rfl
  | a, k, x :: xs, hcov, hlo, hhi => by
      rw [List.length_cons] at hhi
      push_cast at hhi
      have hstore := hcov.store (x := x) hlo (show k ≤ hi by omega)
      have ih := Block.Covers.storeAll (k + 1) xs (hcov.withCells (Function.update a.cells k x))
        (by omega) (by omega)
      simp only [Block.storeAll, hstore, ok_bind, ih, Block.withCells_withCells,
        Block.withCells_cells, writeSeg]

lemma Block.Covers.loadAll : ∀ {a : Block α} (k : ℤ) (n : ℕ), a.Covers lo hi → lo ≤ k →
    k + n ≤ hi + 1 → a.loadAll k n = .ok (seg a.cells k (k + n - 1))
  | a, k, 0, _, _, _ => by
      rw [Block.loadAll, seg_nil (by omega)]
  | a, k, n + 1, hcov, hlo, hhi => by
      push_cast at hhi
      have ih := Block.Covers.loadAll (k + 1) n hcov (by omega) (by omega)
      rw [Block.loadAll, hcov.load hlo (by omega), ok_bind, ih, ok_bind, pure_eq_ok,
        seg_cons (show k ≤ k + ((n + 1 : ℕ) : ℤ) - 1 by push_cast; omega)]
      rw [show k + 1 + (n : ℤ) - 1 = k + ((n + 1 : ℕ) : ℤ) - 1 by push_cast; omega]

/-- One exchange of neighbours that are strictly out of order. -/
def AdjSwap (key : α → ℤ) (lo hi : ℤ) (f g : ℤ → α) : Prop :=
  ∃ j, lo ≤ j ∧ j + 1 ≤ hi ∧ key (f (j + 1)) < key (f j) ∧ g = f ∘ Equiv.swap j (j + 1)

/-- Any number of such exchanges. -/
abbrev AdjSwaps (key : α → ℤ) (lo hi : ℤ) : (ℤ → α) → (ℤ → α) → Prop :=
  Relation.ReflTransGen (AdjSwap key lo hi)

lemma AdjSwaps.rearranges (h : AdjSwaps key lo hi f g) : Rearranges lo hi f g := by
  induction h with
  | refl => exact Rearranges.refl lo hi f
  | tail _ hstep ih =>
      rcases hstep with ⟨j, hlo, hhi, _, rfl⟩
      exact ih.trans (rearranges_swap _ hlo (by omega) (by omega) hhi)

lemma AdjSwaps.mono (h : AdjSwaps key i j f g) (hlo : lo ≤ i) (hhi : j ≤ hi) :
    AdjSwaps key lo hi f g := by
  induction h with
  | refl => exact Relation.ReflTransGen.refl
  | tail _ hstep ih =>
      rcases hstep with ⟨l, hl₁, hl₂, hlt, rfl⟩
      exact ih.tail ⟨l, by omega, by omega, hlt, rfl⟩

end

/-! ## Stability -/

section

variable {α : Type} {key : α → ℤ} {xs ys zs : List α}

/-- For every key, the elements with that key are the same and stand in the same order. -/
def SameByKey (key : α → ℤ) (xs ys : List α) : Prop :=
  ∀ v, xs.filter (fun x => key x = v) = ys.filter fun x => key x = v

lemma SameByKey.refl (key : α → ℤ) (xs : List α) : SameByKey key xs xs := fun _ => rfl

lemma SameByKey.trans (h₁ : SameByKey key xs ys) (h₂ : SameByKey key ys zs) : SameByKey key xs zs :=
  fun v => (h₁ v).trans (h₂ v)

lemma SameByKey.append {xs' ys' : List α} (h : SameByKey key xs ys) (h' : SameByKey key xs' ys') :
    SameByKey key (xs ++ xs') (ys ++ ys') := by
  intro v
  rw [List.filter_append, List.filter_append, h v, h' v]

/-- Nothing is lost or duplicated. -/
lemma SameByKey.perm (h : SameByKey key xs ys) : xs.Perm ys := by
  classical
  refine List.perm_iff_count.mpr fun x => ?_
  have hx : decide (key x = key x) = true := by simp
  rw [← List.count_filter (p := fun y => decide (key y = key x)) hx,
    ← List.count_filter (p := fun y => decide (key y = key x)) hx (l := ys), h (key x)]

/-- Two neighbours with different keys may change places. -/
lemma sameByKey_pair {x y : α} (h : key x ≠ key y) : SameByKey key [x, y] [y, x] := by
  intro v
  by_cases hx : key x = v
  · have hy : ¬ key y = v := fun hy => h (hx.trans hy.symm)
    simp [hx, hy]
  · simp [List.filter_cons, hx]

lemma AdjSwap.sameByKey {lo hi : ℤ} {f g : ℤ → α} (h : AdjSwap key lo hi f g) :
    SameByKey key (seg g lo hi) (seg f lo hi) := by
  rcases h with ⟨j, hlo, hhi, hlt, rfl⟩
  -- the cells before `j`, the two that change places, and the rest
  have hsplit : ∀ f : ℤ → α,
      seg f lo hi = seg f lo (j - 1) ++ ([f j, f (j + 1)] ++ seg f (j + 2) hi) := by
    intro f
    rw [seg_append (show lo ≤ j - 1 + 1 by omega) (show j - 1 ≤ hi by omega),
      seg_cons (show j - 1 + 1 ≤ hi by omega), seg_cons (show j - 1 + 1 + 1 ≤ hi by omega),
      show j - 1 + 1 = j by omega, show j + 1 + 1 = j + 2 by omega]
    rfl
  have hfix : ∀ k, k ≠ j → k ≠ j + 1 → (f ∘ Equiv.swap j (j + 1)) k = f k := fun k hk hk' =>
    congrArg f (Equiv.swap_apply_of_ne_of_ne hk hk')
  rw [hsplit f, hsplit (f ∘ Equiv.swap j (j + 1)),
    seg_congr (f := f ∘ Equiv.swap j (j + 1)) fun k _ hk => hfix k (by omega) (by omega),
    seg_congr (f := f ∘ Equiv.swap j (j + 1)) fun k hk _ => hfix k (by omega) (by omega)]
  simp only [Function.comp_apply, Equiv.swap_apply_left, Equiv.swap_apply_right]
  exact (SameByKey.refl key _).append
    ((sameByKey_pair (ne_of_lt hlt)).append (SameByKey.refl key _))

/-- Exchanging neighbours that are strictly out of order never moves a record past another one
with the same key. -/
lemma AdjSwaps.sameByKey {lo hi : ℤ} {f g : ℤ → α} (h : AdjSwaps key lo hi f g) :
    SameByKey key (seg g lo hi) (seg f lo hi) := by
  induction h with
  | refl => exact SameByKey.refl key _
  | tail _ hstep ih => exact hstep.sameByKey.trans ih

/-- Merging two ascending lists, ties to the left, is stable. -/
lemma sameByKey_merge : ∀ xs ys : List α, xs.Pairwise (fun x y => key x ≤ key y) →
    SameByKey key (xs.merge ys fun x y => key x ≤ key y) (xs ++ ys)
  | [], ys, _ => by simpa using SameByKey.refl key ys
  | x :: xs, [], _ => by simpa using SameByKey.refl key (x :: xs)
  | x :: xs, y :: ys, h => by
      rw [List.cons_merge_cons]
      split_ifs with hle
      · have ih := sameByKey_merge xs (y :: ys) h.tail
        exact (SameByKey.refl key [x]).append ih
      · -- `y` overtakes only elements with a larger key
        have ih := sameByKey_merge (x :: xs) ys h
        intro v
        have hcons : (y :: ys).filter (fun x => key x = v)
            = if key y = v then y :: ys.filter (fun x => key x = v)
              else ys.filter (fun x => key x = v) := by
          simp [List.filter_cons]
        rw [List.filter_append, hcons, List.filter_cons, ih v, List.filter_append]
        simp only [decide_eq_true_eq] at hle ⊢
        split_ifs with hy
        · have hnone : (x :: xs).filter (fun x => key x = v) = [] := by
            refine List.filter_eq_nil_iff.mpr fun z hz => ?_
            have hxz : key x ≤ key z := by
              rcases List.mem_cons.mp hz with rfl | hz
              · exact le_refl _
              · exact List.rel_of_pairwise_cons h hz
            simp only [decide_eq_true_eq]
            omega
          rw [hnone]
          rfl
        · rfl

end

end CExercises
