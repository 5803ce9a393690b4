import CExercises.BinarySearchTree.Refinement
import Mathlib.Algebra.Order.Ring.Int
import Mathlib.Tactic.GCongr

/-!
# What insertion and deletion do to the shape of a tree

`BinarySearchTree/Refinement.lean` looks at a tree as a set.  Here the tree itself matters: which
calls leave it as it is, node by node, which sequence of insertions builds it, and how its height
moves.

In an ordered tree a value has one place.  Insertion and deletion of a value walk to the same place,
so deletion finds the leaf that insertion has hung there; and the values of a subtree, inserted in
any order, never leave it (`foldl_bstInsert_left`, `foldl_bstInsert_right`), so a preorder sequence
builds the root, then the whole left subtree, then the whole right one.
-/

namespace CExercises.BinarySearchTree

open CExercises.Tree

variable {t l r : Tree ℤ} {v value : ℤ}

/-! ## Copying -/

/-- Values smaller than the root go to the left. -/
lemma foldl_bstInsert_left (xs : List ℤ) (h : ∀ x ∈ xs, x < v) (l r : Tree ℤ) :
    xs.foldl bstInsert (.node v l r) = .node v (xs.foldl bstInsert l) r := by
  induction xs generalizing l with
  | nil => rfl
  | cons x xs ih =>
      have hx : x < v := h x List.mem_cons_self
      have hstep : bstInsert (.node v l r) x = .node v (bstInsert l x) r := by
        simp only [bstInsert, if_pos hx]
      rw [List.foldl_cons, List.foldl_cons, hstep]
      exact ih (fun y hy => h y (List.mem_cons_of_mem x hy)) _

/-- Values larger than the root go to the right. -/
lemma foldl_bstInsert_right (xs : List ℤ) (h : ∀ x ∈ xs, v < x) (l r : Tree ℤ) :
    xs.foldl bstInsert (.node v l r) = .node v l (xs.foldl bstInsert r) := by
  induction xs generalizing r with
  | nil => rfl
  | cons x xs ih =>
      have hx : v < x := h x List.mem_cons_self
      have hstep : bstInsert (.node v l r) x = .node v l (bstInsert r x) := by
        simp only [bstInsert, if_neg (lt_asymm hx), gt_iff_lt, if_pos hx]
      rw [List.foldl_cons, List.foldl_cons, hstep]
      exact ih (fun y hy => h y (List.mem_cons_of_mem x hy)) _

/-- **Preorder copies a tree.** -/
theorem bst_preorder_copies (t : Tree ℤ) (h : Ordered t) :
    (bstPreorder t).foldl bstInsert .nil = t := by
  induction t with
  | nil => rfl
  | node v l r ihl ihr =>
      have hl : ∀ x ∈ bstPreorder l, x < v := fun x hx => h.1 x ((mem_bstPreorder x l).mp hx)
      have hr : ∀ x ∈ bstPreorder r, v < x := fun x hx => h.2.1 x ((mem_bstPreorder x r).mp hx)
      calc (bstPreorder (.node v l r)).foldl bstInsert .nil
          = (bstPreorder r).foldl bstInsert
              ((bstPreorder l).foldl bstInsert (.node v .nil .nil)) := by
            rw [bstPreorder, List.foldl_cons, List.foldl_append]
            rfl
        _ = .node v ((bstPreorder l).foldl bstInsert .nil)
              ((bstPreorder r).foldl bstInsert .nil) := by
            rw [foldl_bstInsert_left _ hl, foldl_bstInsert_right _ hr]
        _ = .node v l r := by rw [ihl h.left, ihr h.right]

/-- A tree that is all right children below its root's left child. -/
theorem bst_preorder_copies_zigzag :
    let t : Tree ℤ := .node 5 (.node 1 .nil (.node 2 .nil (.node 4 .nil .nil))) (.node 9 .nil .nil)
    Ordered t ∧ (bstPreorder t).foldl bstInsert .nil = t := by
  intro t
  have h : Ordered t := by simp [t, Ordered]
  exact ⟨h, bst_preorder_copies t h⟩

/-! ## Calls without effect, and undoing an insertion -/

lemma bstInsert_of_has (h : Ordered t) (hv : Has value t) : bstInsert t value = t := by
  induction t with
  | nil => exact absurd hv (has_nil value)
  | node v l r ihl ihr =>
      simp only [bstInsert]
      split_ifs with hlt hgt
      · rw [ihl h.left ((h.has_lt hlt).mp hv)]
      · rw [ihr h.right ((h.has_gt hgt).mp hv)]
      · rfl

lemma bstDelete_of_not_has (h : Ordered t) (hv : ¬ Has value t) : bstDelete t value = .ok t := by
  induction t with
  | nil => rfl
  | node v l r ihl ihr =>
      rw [has_node, not_or, not_or] at hv
      rcases hv with ⟨hne, hl, hr⟩
      simp only [bstDelete]
      split_ifs with hlt hgt hlnil hrnil
      · simp [ihl h.left hl]
      · simp [ihr h.right hr]
      · omega
      · omega
      · omega

/-- Deletion walks where insertion walked, and removes the leaf that was hung there. -/
lemma bstDelete_bstInsert (h : Ordered t) (hv : ¬ Has value t) :
    bstDelete (bstInsert t value) value = .ok t := by
  induction t with
  | nil => simp [bstInsert, nodeCreate, bstDelete]
  | node v l r ihl ihr =>
      rw [has_node, not_or, not_or] at hv
      rcases hv with ⟨hne, hl, hr⟩
      simp only [bstInsert]
      split_ifs with hlt hgt
      · simp [bstDelete, hlt, ihl h.left hl]
      · simp [bstDelete, hlt, hgt, ihr h.right hr]
      · omega

/-- **No-ops and undo**, on the tree itself. -/
theorem bst_undo (t : Tree ℤ) (v : ℤ) (h : Ordered t) :
    (¬ Has v t → bstDelete t v = .ok t ∧ bstDelete (bstInsert t v) v = .ok t)
    ∧ (Has v t → bstInsert t v = t) :=
  ⟨fun hv => ⟨bstDelete_of_not_has h hv, bstDelete_bstInsert h hv⟩, bstInsert_of_has h⟩

theorem bst_undo_leaf :
    Ordered (Tree.node (5 : ℤ) (.node 1 .nil .nil) .nil)
      ∧ bstDelete (bstInsert (.node 5 (.node 1 .nil .nil) .nil) 3) 3
          = .ok (.node 5 (.node 1 .nil .nil) .nil) := by
  have h : Ordered (Tree.node (5 : ℤ) (.node 1 .nil .nil) .nil) := by simp [Ordered]
  exact ⟨h, ((bst_undo _ 3 h).1 (by simp)).2⟩

/-! ## Height -/

lemma depth_node : (node v l r).depth = 1 + max l.depth r.depth := rfl

lemma depth_bstInsert (t : Tree ℤ) (value : ℤ) :
    t.depth ≤ (bstInsert t value).depth ∧ (bstInsert t value).depth ≤ t.depth + 1 := by
  induction t with
  | nil => simp [bstInsert, nodeCreate, depth]
  | node v l r ihl ihr =>
      simp only [bstInsert]
      split_ifs with hlt hgt
      · simp only [depth_node]
        omega
      · simp only [depth_node]
        omega
      · omega

/-- The recursive call of the two-children case is on another value, for which the hypothesis has to
hold as well. -/
lemma depth_bstDelete (h : Ordered t) : ∀ value, ∃ t', bstDelete t value = .ok t'
    ∧ t.depth ≤ t'.depth + 1 ∧ t'.depth ≤ t.depth := by
  induction t with
  | nil => exact fun value => ⟨.nil, rfl, by omega, le_refl _⟩
  | node v l r ihl ihr =>
      intro value
      simp only [bstDelete, depth_node]
      split_ifs with hlt hgt hlnil hrnil
      · rcases ihl h.left value with ⟨l', hrun, hlo, hhi⟩
        refine ⟨.node v l' r, by simp [hrun], ?_⟩
        rw [depth_node]
        omega
      · rcases ihr h.right value with ⟨r', hrun, hlo, hhi⟩
        refine ⟨.node v l r', by simp [hrun], ?_⟩
        rw [depth_node]
        omega
      · subst hlnil
        have hzero : (nil : Tree ℤ).depth = 0 := rfl
        exact ⟨r, rfl, by omega, by omega⟩
      · subst hrnil
        have hzero : (nil : Tree ℤ).depth = 0 := rfl
        exact ⟨l, rfl, by omega, by omega⟩
      · rcases bstMin_spec h.right hrnil with ⟨s, sl, sr, hmin, _⟩
        rcases ihr h.right s with ⟨r', hrun, hlo, hhi⟩
        refine ⟨.node s l r', by simp [hmin, loadValue, hrun], ?_⟩
        rw [depth_node]
        omega

/-- **`bst_height`** is the depth, up to `INT_MAX` levels. -/
lemma bstHeight_eq (t : Tree ℤ) : bstHeight t = intOfNat t.depth := by
  induction t with
  | nil => rfl
  | node v l r ihl ihr =>
      rw [bstHeight, ihl, ihr]
      refine intOfNat_bind (by rw [depth_node]; omega) (intOfNat_bind (by rw [depth_node]; omega) ?_)
      have hmax : (if (l.depth : ℤ) > r.depth then (l.depth : ℤ) else r.depth)
          = (max l.depth r.depth : ℕ) := by
        split_ifs with h <;> omega
      rw [hmax]
      exact intAdd_eq_intOfNat 1 _

/-- **The height moves by at most one**, and bounds the number of nodes from both sides, as far as
`bst_height` and `bst_count` return; and they do up to `INT_MAX` levels and nodes. -/
theorem bst_height_moves (t : Tree ℤ) (v : ℤ) :
    (Ordered t → ∃ t', bstDelete t v = .ok t'
      ∧ (∀ h h', bstHeight t = .ok h → bstHeight (bstInsert t v) = .ok h' → h ≤ h' ∧ h' ≤ h + 1)
      ∧ ∀ h h', bstHeight t = .ok h → bstHeight t' = .ok h' → h - 1 ≤ h' ∧ h' ≤ h)
    ∧ (∀ h n, bstHeight t = .ok h → bstCount t = .ok n → h ≤ n ∧ n ≤ 2 ^ h.toNat - 1)
    ∧ ∀ u : Tree ℤ,
        bstHeight u = (if (u.depth : ℤ) ≤ INT_MAX then .ok (u.depth : ℤ) else .error .overflow)
          ∧ bstCount u = (if (u.size : ℤ) ≤ INT_MAX then .ok (u.size : ℤ)
            else .error .overflow) := by
  refine ⟨fun hord => ?_, fun h n hh hn => ?_, fun u => ⟨bstHeight_eq u, bstCount_eq u⟩⟩
  · obtain ⟨t', hrun, hlo, hhi⟩ := depth_bstDelete hord v
    have hins := depth_bstInsert t v
    refine ⟨t', hrun, fun h h' hh hh' => ?_, fun h h' hh hh' => ?_⟩
    · rw [bstHeight_eq, intOfNat_eq_ok] at hh hh'
      omega
    · rw [bstHeight_eq, intOfNat_eq_ok] at hh hh'
      omega
  · rw [bstHeight_eq, intOfNat_eq_ok] at hh
    rw [bstCount_eq, intOfNat_eq_ok] at hn
    obtain ⟨-, rfl⟩ := hh
    obtain ⟨-, rfl⟩ := hn
    have hle := depth_le_size t
    have hlt : ((t.size : ℤ)) < 2 ^ t.depth := by exact_mod_cast size_lt_two_pow t
    rw [Int.toNat_natCast]
    omega

/-- A root with two children, deleted. -/
theorem bst_height_moves_root :
    let t : Tree ℤ := .node 5 (.node 1 .nil .nil) (.node 9 .nil .nil)
    Ordered t ∧ bstHeight t = .ok 2 ∧ bstCount t = .ok 3
      ∧ bstDelete t 5 = .ok (.node 9 (.node 1 .nil .nil) .nil)
      ∧ bstHeight (.node 9 (.node 1 .nil .nil) .nil) = .ok 2
      ∧ (2 - 1 : ℤ) ≤ 2 ∧ (3 : ℤ) ≤ 2 ^ (2 : ℤ).toNat - 1 := by
  intro t
  have h : Ordered t := by simp [t, Ordered]
  obtain ⟨⟨t', hrun, _, hmoves⟩, hcount, _⟩ := And.imp_left (fun hord => hord h) (bst_height_moves t 5)
  cases hrun
  exact ⟨h, rfl, rfl, rfl, rfl, (hmoves 2 2 rfl rfl).1, (hcount 2 3 rfl rfl).2⟩

/-- The full tree of `2 ^ 32 - 1` nodes is 32 levels high, and too large for `bst_count`. -/
theorem bst_count_overflows_full :
    Ordered (full 32 INT_MIN) ∧ (∀ x, Has x (full 32 INT_MIN) → FitsInt x)
      ∧ bstHeight (full 32 INT_MIN) = .ok 32 ∧ bstCount (full 32 INT_MIN) = .error .overflow := by
  have hsize := size_full 32 INT_MIN
  refine ⟨ordered_full 32 INT_MIN, fun x hx => ?_, ?_, ?_⟩
  · have hbounds := has_full hx
    unfold FitsInt INT_MAX
    unfold INT_MIN at hbounds ⊢
    omega
  · rw [bstHeight_eq, depth_full, intOfNat_of_le (by decide)]
    rfl
  · rw [bstCount_eq, intOfNat_of_lt]
    unfold INT_MAX
    omega

end CExercises.BinarySearchTree
