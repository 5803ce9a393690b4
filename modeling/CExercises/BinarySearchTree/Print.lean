import CExercises.BinarySearchTree.Shape

/-!
# What `bst_print` shows

The printed lines are the picture of the tree with depths written as blanks (`lineOf`).  From a
starting depth of `0` or more the blanks give the depths back, and with them the tree.  From a
negative depth the root is indented as far as its children, namely not at all, and a root above its
right child looks like that child above a left one.

Read from the bottom to the top the lines are the values in order, whatever the depth.
-/

namespace CExercises.BinarySearchTree

open CExercises.Tree

/-- A value at a depth, as it is printed. -/
def lineOf (p : ℤ × ℤ) : Line := ⟨p.1.toNat, p.2⟩

section

variable {t u : Tree ℤ} {depth : ℤ} {lines : List Line}

/-- What is printed is the picture of the tree. -/
lemma bstPrint_eq_of_ok (h : bstPrint t depth = .ok lines) :
    lines = (sideways t depth).map lineOf := by
  induction t generalizing depth lines with
  | nil =>
      cases h
      rfl
  | node v l r ihl ihr =>
      by_cases hdepth : depth < INT_MAX
      · simp only [bstPrint, intSucc_eq hdepth, ok_bind] at h
        rcases bind_eq_ok.mp h with ⟨above, habove, h⟩
        rcases bind_eq_ok.mp h with ⟨below, hbelow, h⟩
        cases h
        rw [ihr habove, ihl hbelow, sideways, List.map_append, List.map_cons, lineOf]
      · simp [bstPrint, intSucc, hdepth] at h

/-- The deepest call is one below the deepest node. -/
lemma bstPrint_returns (h : depth + t.depth ≤ INT_MAX) :
    bstPrint t depth = .ok ((sideways t depth).map lineOf) := by
  induction t generalizing depth with
  | nil => rfl
  | node v l r ihl ihr =>
      rw [depth_node] at h
      have hdepth : depth < INT_MAX := by omega
      simp only [bstPrint, intSucc_eq hdepth, ok_bind, ihr (show depth + 1 + _ ≤ _ by omega),
        ihl (show depth + 1 + _ ≤ _ by omega)]
      rw [sideways, List.map_append, List.map_cons, lineOf]
      rfl

/-- A call below a node that is printed returns as well. -/
lemma le_max_of_bstPrint (hne : t ≠ .nil) (h : bstPrint t depth = .ok lines) :
    depth + t.depth ≤ INT_MAX := by
  induction t generalizing depth lines with
  | nil => exact absurd rfl hne
  | node v l r ihl ihr =>
      by_cases hdepth : depth < INT_MAX
      · simp only [bstPrint, intSucc_eq hdepth, ok_bind] at h
        rcases bind_eq_ok.mp h with ⟨above, habove, h⟩
        rcases bind_eq_ok.mp h with ⟨below, hbelow, -⟩
        have hzero : (nil : Tree ℤ).depth = 0 := rfl
        have hl : depth + 1 + l.depth ≤ INT_MAX := by
          rcases eq_or_ne l .nil with rfl | hl
          · omega
          · exact ihl hl hbelow
        have hr : depth + 1 + r.depth ≤ INT_MAX := by
          rcases eq_or_ne r .nil with rfl | hr
          · omega
          · exact ihr hr habove
        rw [depth_node]
        omega
      · simp [bstPrint, intSucc, hdepth] at h

lemma sideways_values (t : Tree ℤ) (depth : ℤ) :
    ((sideways t depth).map Prod.snd).reverse = bstInorder t := by
  induction t generalizing depth with
  | nil => rfl
  | node v l r ihl ihr => simp [sideways, bstInorder, ← ihl (depth + 1), ← ihr (depth + 1)]

/-- From depth `0` on the blanks give the depths back. -/
lemma sideways_of_lines (t : Tree ℤ) (h : 0 ≤ depth) :
    ((sideways t depth).map lineOf).map (fun line => ((line.indent : ℤ), line.value))
      = sideways t depth := by
  rw [List.map_map]
  calc (sideways t depth).map _ = (sideways t depth).map id := by
        refine List.map_congr_left fun p hp => ?_
        have hle : 0 ≤ p.1 := le_trans h (le_of_mem_sideways hp)
        simp [lineOf, Int.toNat_of_nonneg hle]
    _ = sideways t depth := List.map_id _

lemma eq_of_lines (h : 0 ≤ depth) (ht : bstPrint t depth = .ok lines)
    (hu : bstPrint u depth = .ok lines) : t = u := by
  have hsame : (sideways t depth).map lineOf = (sideways u depth).map lineOf :=
    (bstPrint_eq_of_ok ht).symm.trans (bstPrint_eq_of_ok hu)
  refine sideways_injective (d := depth) ?_
  rw [← sideways_of_lines t h, hsame, sideways_of_lines u h]

end

/-! ## Negative depths -/

/-- A root with its child on the right. -/
def rightChild : Tree ℤ := .node 1 .nil (.node 2 .nil .nil)

/-- The child as the root, with the root on its left. -/
def leftChild : Tree ℤ := .node 2 (.node 1 .nil .nil) .nil

/-- Below `0` the two look alike. -/
lemma bstPrint_of_neg {depth : ℤ} (h : depth < 0) :
    bstPrint rightChild depth = .ok [⟨0, 2⟩, ⟨0, 1⟩]
      ∧ bstPrint leftChild depth = .ok [⟨0, 2⟩, ⟨0, 1⟩] := by
  have hroot : depth.toNat = 0 := Int.toNat_of_nonpos (by omega)
  have hchild : (depth + 1).toNat = 0 := Int.toNat_of_nonpos (by omega)
  have hroom : depth + 2 ≤ INT_MAX := by
    unfold INT_MAX
    omega
  constructor
  · rw [bstPrint_returns (show depth + rightChild.depth ≤ INT_MAX from hroom)]
    simp [rightChild, sideways, lineOf, hroot, hchild]
  · rw [bstPrint_returns (show depth + leftChild.depth ≤ INT_MAX from hroom)]
    simp [leftChild, sideways, lineOf, hroot, hchild]

/-- **What `bst_print` shows.**  The printed lines determine the tree exactly from the starting
depths that are not negative.  From any depth the lines, read from the bottom to the top, are the
values in order.  There are lines exactly when no depth overflows. -/
theorem bst_print_shows_tree (depth : ℤ) :
    ((∀ t u lines, bstPrint t depth = .ok lines → bstPrint u depth = .ok lines → t = u)
        ↔ 0 ≤ depth)
      ∧ (∀ t lines, bstPrint t depth = .ok lines →
          (lines.map Line.value).reverse = bstInorder t)
      ∧ ∀ t : Tree ℤ, (∃ lines, bstPrint t depth = .ok lines)
          ↔ t = .nil ∨ depth + t.depth ≤ INT_MAX := by
  refine ⟨⟨fun hshows => ?_, fun h t u lines ht hu => eq_of_lines h ht hu⟩, fun t lines h => ?_,
    fun t => ⟨?_, ?_⟩⟩
  · by_contra hneg
    rcases bstPrint_of_neg (not_le.mp hneg) with ⟨hright, hleft⟩
    cases hshows _ _ _ hright hleft
  · rw [bstPrint_eq_of_ok h, List.map_map]
    exact sideways_values t depth
  · rintro ⟨lines, h⟩
    exact or_iff_not_imp_left.mpr fun hne => le_max_of_bstPrint hne h
  · rintro (rfl | h)
    · exact ⟨[], rfl⟩
    · exact ⟨_, bstPrint_returns h⟩

/-- Two trees that look alike from depth `-1`. -/
theorem bst_print_hides_shape :
    rightChild ≠ leftChild ∧ bstPrint rightChild (-1) = .ok [⟨0, 2⟩, ⟨0, 1⟩]
      ∧ bstPrint leftChild (-1) = .ok [⟨0, 2⟩, ⟨0, 1⟩] := by
  refine ⟨by decide, ?_⟩
  exact bstPrint_of_neg (by decide)

end CExercises.BinarySearchTree
