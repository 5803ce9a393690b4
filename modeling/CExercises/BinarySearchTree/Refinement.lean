import CExercises.BinarySearchTree.Def

/-!
# The search tree implements a finite set

`setCall` is the specification: a set of integers.  Each function of `bst.c` gets one lemma that
says what it does to an ordered tree in terms of the tree's members, and `Represents` — ordered,
with the members of a given set — is what a call preserves.

The one delicate case is `bst_delete` at a node with two children.  There the successor's value is
written over the node while the successor is still in the right subtree, so the order is broken by
a duplicate until the recursive call removes it; the induction hypothesis for that call is what
restores it.
-/

namespace CExercises.BinarySearchTree

open CExercises.Tree

/-- What each call does to a set. -/
def setCall (S : Finset ℤ) : Call → Finset ℤ
  | .insert value => insert value S
  | .delete value => S.erase value

/-- A client's calls on a set that starts empty. -/
def setRun (cs : List Call) : Finset ℤ := cs.foldl setCall ∅

/-- The tree is ordered and holds the elements of `S`. -/
def Represents (t : Tree ℤ) (S : Finset ℤ) : Prop := Ordered t ∧ ∀ x, Has x t ↔ x ∈ S

/-! ## Insertion -/

lemma has_bstInsert (x value : ℤ) (t : Tree ℤ) :
    Has x (bstInsert t value) ↔ x = value ∨ Has x t := by
  induction t with
  | nil => simp [bstInsert, nodeCreate]
  | node v l r ihl ihr =>
      simp only [bstInsert]
      split_ifs with hlt hgt
      · rw [has_node, has_node, ihl, or_assoc]
        exact or_left_comm
      · rw [has_node, has_node, ihr, or_left_comm (a := Has x l)]
        exact or_left_comm
      · have heq : value = v := by omega
        rw [heq, has_node, or_self_left]

lemma ordered_bstInsert {t : Tree ℤ} (value : ℤ) (h : Ordered t) : Ordered (bstInsert t value) := by
  induction t with
  | nil => simp [bstInsert, nodeCreate, Ordered]
  | node v l r ihl ihr =>
      rcases h with ⟨hl, hr, hol, hor⟩
      simp only [bstInsert]
      split_ifs with hlt hgt
      · refine ⟨fun x hx => ?_, hr, ihl hol, hor⟩
        rcases (has_bstInsert x value l).mp hx with rfl | hx
        · exact hlt
        · exact hl x hx
      · refine ⟨hl, fun x hx => ?_, hol, ihr hor⟩
        rcases (has_bstInsert x value r).mp hx with rfl | hx
        · exact hgt
        · exact hr x hx
      · exact ⟨hl, hr, hol, hor⟩

/-! ## Search -/

lemma bstSearch_eq_nil_iff {t : Tree ℤ} (value : ℤ) (h : Ordered t) :
    bstSearch t value = .nil ↔ ¬ Has value t := by
  induction t with
  | nil => simp [bstSearch]
  | node v l r ihl ihr =>
      simp only [bstSearch]
      split_ifs with heq hlt
      · simp [heq]
      · rw [ihl h.left, h.has_lt hlt]
      · have hgt : v < value := by omega
        rw [ihr h.right, h.has_gt hgt]

lemma bstContains_eq {t : Tree ℤ} (value : ℤ) (h : Ordered t) [Decidable (Has value t)] :
    bstContains t value = if Has value t then 1 else 0 := by
  simp only [bstContains, ne_eq, bstSearch_eq_nil_iff value h, not_not]

/-! ## The least and the greatest node -/

/-- `bst_min` of a tree that is not empty returns a node with the least value. -/
lemma bstMin_spec {t : Tree ℤ} (h : Ordered t) (hne : t ≠ .nil) :
    ∃ v l r, bstMin t = .node v l r ∧ Has v t ∧ ∀ x, Has x t → v ≤ x := by
  induction t with
  | nil => exact absurd rfl hne
  | node v l r ihl _ =>
      simp only [bstMin]
      split_ifs with hnil
      · refine ⟨v, l, r, rfl, Or.inl rfl, ?_⟩
        rintro x (rfl | hl | hr)
        · exact le_refl x
        · rw [hnil] at hl
          exact absurd hl (has_nil x)
        · exact le_of_lt (h.2.1 x hr)
      · rcases ihl h.left hnil with ⟨w, l', r', hmin, hw, hle⟩
        refine ⟨w, l', r', hmin, Or.inr (Or.inl hw), ?_⟩
        rintro x (rfl | hl | hr)
        · exact le_of_lt (h.1 w hw)
        · exact hle x hl
        · exact le_of_lt (lt_trans (h.1 w hw) (h.2.1 x hr))

/-- `bst_max` of a tree that is not empty returns a node with the greatest value. -/
lemma bstMax_spec {t : Tree ℤ} (h : Ordered t) (hne : t ≠ .nil) :
    ∃ v l r, bstMax t = .node v l r ∧ Has v t ∧ ∀ x, Has x t → x ≤ v := by
  induction t with
  | nil => exact absurd rfl hne
  | node v l r _ ihr =>
      simp only [bstMax]
      split_ifs with hnil
      · refine ⟨v, l, r, rfl, Or.inl rfl, ?_⟩
        rintro x (rfl | hl | hr)
        · exact le_refl x
        · exact le_of_lt (h.1 x hl)
        · rw [hnil] at hr
          exact absurd hr (has_nil x)
      · rcases ihr h.right hnil with ⟨w, l', r', hmax, hw, hle⟩
        refine ⟨w, l', r', hmax, Or.inr (Or.inr hw), ?_⟩
        rintro x (rfl | hl | hr)
        · exact le_of_lt (h.2.1 w hw)
        · exact le_of_lt (lt_trans (h.1 x hl) (h.2.1 w hw))
        · exact hle x hr

/-! ## Deletion -/

/-- **`bst_delete`** never follows a null successor, keeps the order and removes exactly the
value. -/
theorem bstDelete_spec {t : Tree ℤ} (value : ℤ) (h : Ordered t) :
    ∃ t', bstDelete t value = .ok t' ∧ Erases value t t' := by
  -- at a node with two children the recursive call is on another value
  induction t generalizing value with
  | nil => exact ⟨.nil, rfl, h, fun x => by simp⟩
  | node v l r ihl ihr =>
      simp only [bstDelete]
      split_ifs with hlt hgt hlnil hrnil
      · rcases ihl value h.left with ⟨l', hrun, hl⟩
        exact ⟨.node v l' r, by simp [hrun], hl.left h hlt⟩
      · rcases ihr value h.right with ⟨r', hrun, hr⟩
        exact ⟨.node v l r', by simp [hrun], hr.right h hgt⟩
      · have heq : value = v := by omega
        subst heq hlnil
        exact ⟨r, rfl, erases_nil_left h⟩
      · have heq : value = v := by omega
        subst heq hrnil
        exact ⟨l, rfl, erases_nil_right h⟩
      · have heq : value = v := by omega
        subst heq
        rcases bstMin_spec h.right hrnil with ⟨s, sl, sr, hmin, hs, hle⟩
        rcases ihr s h.right with ⟨r', hrun, hr⟩
        exact ⟨.node s l r', by simp [hmin, loadValue, hrun], erases_root h hs hle hr⟩

/-! ## Traversal and size -/

lemma mem_bstInorder (x : ℤ) (t : Tree ℤ) : x ∈ bstInorder t ↔ Has x t := by
  induction t with
  | nil => simp [bstInorder]
  | node v l r ihl ihr =>
      rw [bstInorder, List.mem_append, List.mem_cons, ihl, ihr, has_node]
      exact or_left_comm

lemma mem_bstPreorder (x : ℤ) (t : Tree ℤ) : x ∈ bstPreorder t ↔ Has x t := by
  induction t with
  | nil => simp [bstPreorder]
  | node v l r ihl ihr => simp [bstPreorder, ihl, ihr]

lemma pairwise_bstInorder {t : Tree ℤ} (h : Ordered t) : (bstInorder t).Pairwise (· < ·) := by
  induction t with
  | nil => exact List.Pairwise.nil
  | node v l r ihl ihr =>
      rw [bstInorder, List.pairwise_append, List.pairwise_cons]
      refine ⟨ihl h.left, ⟨fun x hx => h.2.1 x ((mem_bstInorder x r).mp hx), ihr h.right⟩, ?_⟩
      intro x hx y hy
      have hxv : x < v := h.1 x ((mem_bstInorder x l).mp hx)
      rcases List.mem_cons.mp hy with rfl | hy
      · exact hxv
      · exact lt_trans hxv (h.2.1 y ((mem_bstInorder y r).mp hy))

lemma length_bstInorder (t : Tree ℤ) : (bstInorder t).length = t.size := by
  induction t with
  | nil => rfl
  | node v l r ihl ihr =>
      rw [bstInorder, List.length_append, List.length_cons, ihl, ihr, size]
      omega

/-- **`bst_count`** is the number of nodes, up to `INT_MAX` of them. -/
lemma bstCount_eq (t : Tree ℤ) : bstCount t = intOfNat t.size := by
  induction t with
  | nil => rfl
  | node v l r ihl ihr =>
      rw [bstCount, ihl, ihr]
      refine intOfNat_bind (by rw [size]; omega) (intOfNat_bind (by rw [size]; omega) ?_)
      have hfirst : intAdd 1 l.size = intOfNat (1 + l.size) := intAdd_eq_intOfNat 1 l.size
      rw [hfirst]
      exact intOfNat_bind (by rw [size]; omega) (intAdd_eq_intOfNat _ _)

/-! ## Whole runs -/

section

variable {t : Tree ℤ} {S : Finset ℤ}

lemma Represents.inorder (h : Represents t S) : bstInorder t = ascending S :=
  eq_ascending (pairwise_bstInorder h.1) fun x => by rw [mem_bstInorder, h.2]

lemma Represents.contains (h : Represents t S) (value : ℤ) :
    bstContains t value = if value ∈ S then 1 else 0 := by
  have hdec : Decidable (Has value t) := decidable_of_iff _ (h.2 value).symm
  rw [bstContains_eq value h.1]
  simp only [h.2 value]

lemma Represents.size_eq (h : Represents t S) : t.size = S.card := by
  rw [← length_bstInorder, h.inorder, length_ascending]

lemma Represents.min (h : Represents t S) (hS : S.Nonempty) :
    ∃ l r, bstMin t = .node (S.min' hS) l r := by
  have hne : t ≠ .nil := fun ht => hS.ne_empty ((eq_nil_iff h.2).mp ht)
  rcases bstMin_spec h.1 hne with ⟨v, l, r, hmin, hv, hle⟩
  refine ⟨l, r, ?_⟩
  have hle' : v ≤ S.min' hS := hle _ ((h.2 _).mpr (S.min'_mem hS))
  rw [hmin, le_antisymm hle' (S.min'_le v ((h.2 v).mp hv))]

lemma Represents.max (h : Represents t S) (hS : S.Nonempty) :
    ∃ l r, bstMax t = .node (S.max' hS) l r := by
  have hne : t ≠ .nil := fun ht => hS.ne_empty ((eq_nil_iff h.2).mp ht)
  rcases bstMax_spec h.1 hne with ⟨v, l, r, hmax, hv, hle⟩
  refine ⟨l, r, ?_⟩
  have hle' : S.max' hS ≤ v := hle _ ((h.2 _).mpr (S.max'_mem hS))
  rw [hmax, le_antisymm (S.le_max' v ((h.2 v).mp hv)) hle']

/-- **One call** keeps the tree in step with the set. -/
theorem represents_call (h : Represents t S) (c : Call) :
    ∃ t', call t c = .ok t' ∧ Represents t' (setCall S c) := by
  cases c with
  | insert value =>
      refine ⟨bstInsert t value, rfl, ordered_bstInsert value h.1, fun x => ?_⟩
      rw [has_bstInsert, h.2, setCall, Finset.mem_insert]
  | delete value =>
      rcases bstDelete_spec value h.1 with ⟨t', hrun, hera⟩
      refine ⟨t', hrun, hera.ordered, fun x => ?_⟩
      rw [hera.has, h.2, setCall, Finset.mem_erase]
      exact and_comm

end

lemma represents_run : ∀ (cs : List Call) (t : Tree ℤ) (S : Finset ℤ), Represents t S →
    ∃ t', cs.foldlM call t = .ok t' ∧ Represents t' (cs.foldl setCall S) := by
  intro cs
  induction cs with
  | nil =>
      intro t S h
      exact ⟨t, rfl, h⟩
  | cons c cs ih =>
      intro t S h
      rcases represents_call h c with ⟨t₁, hcall, h₁⟩
      rcases ih t₁ (setCall S c) h₁ with ⟨t', hrun, h'⟩
      exact ⟨t', by simp [hcall, hrun], h'⟩

/-- **The search tree is a finite set**, for every client.  `bst_count` is the one function that
does not keep up with every set: there are more `int`s than `INT_MAX`. -/
theorem bst_run_refines_set (cs : List Call) :
    ∃ t, run cs = .ok t ∧ Ordered t
      ∧ bstInorder t = ascending (setRun cs)
      ∧ (∀ v, bstContains t v = if v ∈ setRun cs then 1 else 0)
      ∧ bstCount t = (if ((setRun cs).card : ℤ) ≤ INT_MAX then .ok ((setRun cs).card : ℤ)
          else .error .overflow)
      ∧ (setRun cs = ∅ → bstMin t = .nil ∧ bstMax t = .nil)
      ∧ ∀ hS : (setRun cs).Nonempty,
          (∃ l r, bstMin t = .node ((setRun cs).min' hS) l r)
            ∧ ∃ l r, bstMax t = .node ((setRun cs).max' hS) l r := by
  have hempty : Represents .nil ∅ := ⟨trivial, fun x => by simp⟩
  rcases represents_run cs .nil ∅ hempty with ⟨t, hrun, h⟩
  refine ⟨t, hrun, h.1, h.inorder, h.contains, ?_, fun hS => ?_, fun hS => ⟨h.min hS, h.max hS⟩⟩
  · rw [bstCount_eq, h.size_eq]
    rfl
  · rw [(eq_nil_iff h.2).mpr hS]
    exact ⟨rfl, rfl⟩

/-- What insertions alone do to a set. -/
lemma mem_foldl_insert (x : ℤ) (vs : List ℤ) (S : Finset ℤ) :
    x ∈ (vs.map Call.insert).foldl setCall S ↔ x ∈ vs ∨ x ∈ S := by
  induction vs generalizing S with
  | nil => simp
  | cons v vs ih =>
      rw [List.map_cons, List.foldl_cons, ih, setCall, Finset.mem_insert, List.mem_cons]
      tauto

/-- Insert the values of a full tree of depth `k`, from the root downwards. -/
def fullClient (k : ℕ) : List Call := (bstPreorder (full k INT_MIN)).map Call.insert

lemma mem_setRun_fullClient (k : ℕ) (x : ℤ) : x ∈ setRun (fullClient k) ↔ Has x (full k INT_MIN) := by
  rw [setRun, fullClient, mem_foldl_insert, mem_bstPreorder]
  exact or_iff_left (Finset.notMem_empty x)

lemma card_fullClient (k : ℕ) : (setRun (fullClient k)).card + 1 = 2 ^ k := by
  have hsame : bstInorder (full k INT_MIN) = ascending (setRun (fullClient k)) :=
    eq_ascending (pairwise_bstInorder (ordered_full k INT_MIN)) fun x => by
      rw [mem_bstInorder, mem_setRun_fullClient]
  rw [← length_ascending, ← hsame, length_bstInorder, size_full]

/-- All `int`s but one, inserted from the root of a full tree downwards: `bst_count` overflows. -/
theorem bst_count_overflows :
    (∀ v, Call.insert v ∈ fullClient 32 → FitsInt v)
      ∧ (setRun (fullClient 32)).card = 4294967295
      ∧ ∃ t, run (fullClient 32) = .ok t ∧ bstCount t = .error .overflow := by
  have hcard := card_fullClient 32
  have hempty : Represents .nil ∅ := ⟨trivial, fun x => by simp⟩
  rcases represents_run (fullClient 32) .nil ∅ hempty with ⟨t, hrun, h⟩
  have hsize : t.size = (setRun (fullClient 32)).card := h.size_eq
  refine ⟨fun v hv => ?_, by omega, t, hrun, ?_⟩
  · obtain ⟨w, hw, heq⟩ := List.mem_map.mp hv
    cases heq
    have hbounds := has_full ((mem_bstPreorder v _).mp hw)
    unfold FitsInt INT_MAX
    unfold INT_MIN at hbounds ⊢
    omega
  · rw [bstCount_eq, intOfNat_of_lt]
    unfold INT_MAX
    omega


end CExercises.BinarySearchTree
