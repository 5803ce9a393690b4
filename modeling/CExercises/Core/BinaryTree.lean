import Mathlib.Algebra.Order.Ring.Int
import Mathlib.Data.Finset.Sort
import Mathlib.Data.List.Basic

/-!
# Binary trees and the strict search order

A binary tree carries a value at every node.  `Ordered` is the strict search order: below every
node the values on the left are smaller and the values on the right are larger.  Because the order
is strict, an ordered tree is determined *as a set* by its members, and everything a traversal can
say about it is a statement about that set.

`sideways` is the picture of a tree turned on its side: every value with its depth, from right to
left.  The root is the only value at its depth, so the picture falls apart into those of the two
subtrees in one way only, and shows the whole tree (`sideways_injective`).

`depth` and `size` bound each other, and the full trees are those that reach the upper bound.

`Erases` is what removing a value means, with one lemma for each shape the tree can have at the
node that changes.
-/

namespace CExercises

/-- A binary tree; `nil` is the null pointer. -/
inductive Tree (α : Type)
  | nil
  | node (value : α) (left right : Tree α)
  deriving DecidableEq, Repr

namespace Tree

variable {α : Type}

/-- `x` is the value of some node of the tree. -/
def Has (x : α) : Tree α → Prop
  | nil => False
  | node v l r => x = v ∨ Has x l ∨ Has x r

/-- The strict search order, at every node. -/
def Ordered [LT α] : Tree α → Prop
  | nil => True
  | node v l r => (∀ x, Has x l → x < v) ∧ (∀ x, Has x r → v < x) ∧ Ordered l ∧ Ordered r

@[simp] lemma has_nil (x : α) : ¬ Has x (nil : Tree α) := id

@[simp] lemma has_node {x v : α} {l r : Tree α} :
    Has x (node v l r) ↔ x = v ∨ Has x l ∨ Has x r := Iff.rfl

/-- The tree at a node holds at least the node's own value. -/
lemma exists_has : ∀ {t : Tree α}, t ≠ nil → ∃ x, Has x t
  | nil, h => absurd rfl h
  | node v _ _, _ => ⟨v, Or.inl rfl⟩

/-- A tree with the members of a set is empty exactly when the set is. -/
lemma eq_nil_iff {t : Tree α} {S : Finset α} (h : ∀ x, Has x t ↔ x ∈ S) : t = nil ↔ S = ∅ := by
  constructor
  · intro ht
    subst ht
    exact Finset.eq_empty_of_forall_notMem fun x hx => (h x).mpr hx
  · intro hS
    by_contra ht
    rcases exists_has ht with ⟨x, hx⟩
    rw [h, hS] at hx
    exact Finset.notMem_empty x hx

/-! ## Depth and size -/

/-- The number of nodes on a longest path from the root. -/
def depth : Tree α → ℕ
  | nil => 0
  | node _ l r => 1 + max (depth l) (depth r)

/-- The number of nodes. -/
def size : Tree α → ℕ
  | nil => 0
  | node _ l r => 1 + size l + size r

/-- A longest path has no more nodes than the tree. -/
lemma depth_le_size : ∀ t : Tree α, t.depth ≤ t.size
  | nil => Nat.le_refl 0
  | node v l r => by
      have hl := depth_le_size l
      have hr := depth_le_size r
      simp only [depth, size]
      omega

/-- At each level there are at most twice as many nodes as at the one above. -/
lemma size_lt_two_pow : ∀ t : Tree α, t.size < 2 ^ t.depth
  | nil => Nat.one_pos
  | node v l r => by
      have hl := size_lt_two_pow l
      have hr := size_lt_two_pow r
      have hpl : 2 ^ l.depth ≤ 2 ^ max l.depth r.depth :=
        Nat.pow_le_pow_right (by omega) (Nat.le_max_left _ _)
      have hpr : 2 ^ r.depth ≤ 2 ^ max l.depth r.depth :=
        Nat.pow_le_pow_right (by omega) (Nat.le_max_right _ _)
      rw [depth, size, Nat.add_comm 1 (max _ _), Nat.pow_succ]
      omega

/-- The full tree of depth `k`, with the integers strictly between `lo` and `lo + 2 ^ k`. -/
def full : ℕ → ℤ → Tree ℤ
  | 0, _ => nil
  | k + 1, lo => node (lo + 2 ^ k) (full k lo) (full k (lo + 2 ^ k))

lemma depth_full (k : ℕ) (lo : ℤ) : (full k lo).depth = k := by
  induction k generalizing lo with
  | zero => rfl
  | succ k ih =>
      rw [full, depth, ih, ih, Nat.max_self, Nat.add_comm]

lemma size_full (k : ℕ) (lo : ℤ) : (full k lo).size + 1 = 2 ^ k := by
  induction k generalizing lo with
  | zero => rfl
  | succ k ih =>
      have hl := ih lo
      have hr := ih (lo + 2 ^ k)
      rw [full, size, Nat.pow_succ]
      omega

lemma has_full {k : ℕ} {lo x : ℤ} (h : Has x (full k lo)) : lo < x ∧ x < lo + 2 ^ k := by
  induction k generalizing lo with
  | zero => exact absurd h (has_nil x)
  | succ k ih =>
      have hpos : (0 : ℤ) < 2 ^ k := Int.pow_pos (by omega)
      have hpow : (2 : ℤ) ^ (k + 1) = 2 ^ k * 2 := Int.pow_succ 2 k
      rcases h with rfl | hl | hr
      · omega
      · have hbounds := ih hl
        omega
      · have hbounds := ih hr
        omega

lemma ordered_full (k : ℕ) (lo : ℤ) : Ordered (full k lo) := by
  induction k generalizing lo with
  | zero => trivial
  | succ k ih => exact ⟨fun x hx => (has_full hx).2, fun x hx => (has_full hx).1, ih lo, ih _⟩

/-! ## The picture of a tree -/

/-- The values with their depths, from right to left. -/
def sideways : Tree α → ℤ → List (ℤ × α)
  | nil, _ => []
  | node v l r, d => sideways r (d + 1) ++ (d, v) :: sideways l (d + 1)

lemma le_of_mem_sideways {t : Tree α} {d : ℤ} {p : ℤ × α} (h : p ∈ sideways t d) : d ≤ p.1 := by
  induction t generalizing d with
  | nil => cases h
  | node v l r ihl ihr =>
      rw [sideways, List.mem_append, List.mem_cons] at h
      rcases h with hr | rfl | hl
      · have hle := ihr hr
        omega
      · exact le_refl _
      · have hle := ihl hl
        omega

/-- Nothing in the subtrees stands at the depth of the root. -/
lemma not_mem_sideways_succ (t : Tree α) (d : ℤ) (v : α) : (d, v) ∉ sideways t (d + 1) := by
  intro h
  have hle := le_of_mem_sideways h
  omega

/-- **The picture shows the tree.** -/
theorem sideways_injective {t u : Tree α} {d : ℤ} (h : sideways t d = sideways u d) : t = u := by
  induction t generalizing u d with
  | nil =>
      cases u with
      | nil => rfl
      | node w l' r' => simp [sideways] at h
  | node v l r ihl ihr =>
      cases u with
      | nil => simp [sideways] at h
      | node w l' r' =>
          rw [sideways, sideways, List.append_cons_inj_of_notMem (not_mem_sideways_succ r d w)
            (not_mem_sideways_succ l d w)] at h
          rcases h with ⟨hr, hv, hl⟩
          rw [ihl hl, ihr hr, (Prod.mk.inj hv).2]

section

variable [LinearOrder α] {v x : α} {l r : Tree α}

lemma Ordered.left (h : Ordered (node v l r)) : Ordered l := h.2.2.1

lemma Ordered.right (h : Ordered (node v l r)) : Ordered r := h.2.2.2

/-- A value smaller than the root can only be on the left. -/
lemma Ordered.has_lt (h : Ordered (node v l r)) (hx : x < v) : Has x (node v l r) ↔ Has x l := by
  rw [has_node]
  constructor
  · rintro (rfl | hl | hr)
    · exact absurd hx (lt_irrefl x)
    · exact hl
    · exact absurd (h.2.1 x hr) (lt_asymm hx)
  · intro hl
    exact Or.inr (Or.inl hl)

/-- A value larger than the root can only be on the right. -/
lemma Ordered.has_gt (h : Ordered (node v l r)) (hx : v < x) : Has x (node v l r) ↔ Has x r := by
  rw [has_node]
  constructor
  · rintro (rfl | hl | hr)
    · exact absurd hx (lt_irrefl x)
    · exact absurd (h.1 x hl) (lt_asymm hx)
    · exact hr
  · intro hr
    exact Or.inr (Or.inr hr)

/-! ## Erasing -/

/-- `t'` is ordered and holds what `t` holds, except `x`. -/
structure Erases (x : α) (t t' : Tree α) : Prop where
  ordered : Ordered t'
  has : ∀ y, Has y t' ↔ Has y t ∧ y ≠ x

/-- Erasing a value smaller than the root from the left subtree. -/
lemma Erases.left {l' : Tree α} (h : Ordered (node v l r)) (hx : x < v) (hl : Erases x l l') :
    Erases x (node v l r) (node v l' r) := by
  refine ⟨⟨fun y hy => h.1 y ((hl.has y).mp hy).1, h.2.1, hl.ordered, h.right⟩, fun y => ?_⟩
  have hr : Has y r → y ≠ x := fun hy => ne_of_gt (lt_trans hx (h.2.1 y hy))
  have hv : y = v → y ≠ x := fun hy => by rw [hy]; exact ne_of_gt hx
  rw [has_node, has_node, hl.has]
  tauto

/-- Erasing a value larger than the root from the right subtree. -/
lemma Erases.right {r' : Tree α} (h : Ordered (node v l r)) (hx : v < x) (hr : Erases x r r') :
    Erases x (node v l r) (node v l r') := by
  refine ⟨⟨h.1, fun y hy => h.2.1 y ((hr.has y).mp hy).1, h.left, hr.ordered⟩, fun y => ?_⟩
  have hl : Has y l → y ≠ x := fun hy => ne_of_lt (lt_trans (h.1 y hy) hx)
  have hv : y = v → y ≠ x := fun hy => by rw [hy]; exact ne_of_lt hx
  rw [has_node, has_node, hr.has]
  tauto

/-- Erasing the root of a tree without left subtree. -/
lemma erases_nil_left (h : Ordered (node v nil r)) : Erases v (node v nil r) r := by
  refine ⟨h.right, fun y => ?_⟩
  have hr : Has y r → y ≠ v := fun hy => ne_of_gt (h.2.1 y hy)
  have hl := has_nil y
  rw [has_node]
  tauto

/-- Erasing the root of a tree without right subtree. -/
lemma erases_nil_right (h : Ordered (node v l nil)) : Erases v (node v l nil) l := by
  refine ⟨h.left, fun y => ?_⟩
  have hl : Has y l → y ≠ v := fun hy => ne_of_lt (h.1 y hy)
  have hr := has_nil y
  rw [has_node]
  tauto

/-- Erasing the root by moving the least value of the right subtree into its place. -/
lemma erases_root {r' : Tree α} (h : Ordered (node v l r)) (hx : Has x r)
    (hle : ∀ y, Has y r → x ≤ y) (hr : Erases x r r') : Erases v (node v l r) (node x l r') := by
  refine ⟨⟨fun y hy => lt_trans (h.1 y hy) (h.2.1 x hx), fun y hy => ?_, h.left, hr.ordered⟩,
    fun y => ?_⟩
  · rcases (hr.has y).mp hy with ⟨hy', hne⟩
    exact lt_of_le_of_ne (hle y hy') (Ne.symm hne)
  · have hl : Has y l → y ≠ v := fun hy => ne_of_lt (h.1 y hy)
    have hr' : Has y r → y ≠ v := fun hy => ne_of_gt (h.2.1 y hy)
    have hxr : y = x → Has y r := fun hy => by rw [hy]; exact hx
    rw [has_node, has_node, hr.has]
    tauto

end

end Tree

section

variable {α : Type} [LinearOrder α]

/-- The elements of a finite set in ascending order. -/
def ascending (S : Finset α) : List α := S.sort (· ≤ ·)

lemma length_ascending (S : Finset α) : (ascending S).length = S.card := Finset.length_sort _

/-- The strictly ascending list of a finite set is unique. -/
lemma eq_ascending {xs : List α} {S : Finset α} (hxs : xs.Pairwise (· < ·))
    (h : ∀ x, x ∈ xs ↔ x ∈ S) : xs = ascending S := by
  refine hxs.eq_of_mem_iff (Finset.sortedLT_sort S).pairwise fun x => ?_
  rw [h, ascending, Finset.mem_sort]

end

end CExercises
