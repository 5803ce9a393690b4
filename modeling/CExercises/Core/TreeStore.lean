import CExercises.Core.BinaryTree
import CExercises.Core.Memory
import Mathlib.Data.List.Nodup

/-!
# Binary trees in a heap

A tree of `malloc`ed nodes, each with two child pointers.  `TreeAt cells p t` says that the nodes
reached from `p` spell the tree `t`, whose nodes carry their address next to their value.

A chain that ends in `NULL` cannot share a node with itself.  A tree can: two parents may point at
one child, and nothing in `TreeAt` forbids it.  That no address occurs twice is therefore part of
`Owns`, and every surgery has to keep it.

* `TreeAt.congr` is the frame rule.
* `Rewrites` is what a call on a subtree may do: it replaces the tree, takes fresh blocks for new
  nodes, frees the nodes it drops and touches nothing else.
* `Rewrites.left` and `Rewrites.right` carry a rewriting of a child to the parent that stores the
  new child pointer.  These two are the whole induction of a recursive insert or delete.
-/

namespace CExercises

/-- A node with two children. -/
structure TreeNode (β : Type) where
  value : β
  left : Ptr
  right : Ptr
  deriving DecidableEq, Repr

namespace Tree

variable {α β : Type}

/-- The same shape with other values. -/
def map (f : α → β) : Tree α → Tree β
  | nil => nil
  | node v l r => node (f v) (map f l) (map f r)

/-- The addresses of a tree in a heap. -/
def addresses : Tree (ℕ × β) → List ℕ
  | nil => []
  | node x l r => x.1 :: (addresses l ++ addresses r)

@[simp] lemma map_nil (f : α → β) : map f nil = nil := rfl

@[simp] lemma map_node (f : α → β) (v : α) (l r : Tree α) :
    map f (node v l r) = node (f v) (map f l) (map f r) := rfl

lemma map_eq_nil_iff {f : α → β} {t : Tree α} : map f t = nil ↔ t = nil := by
  cases t <;> simp

@[simp] lemma addresses_nil : addresses (nil : Tree (ℕ × β)) = [] := rfl

@[simp] lemma addresses_node (x : ℕ × β) (l r : Tree (ℕ × β)) :
    addresses (node x l r) = x.1 :: (addresses l ++ addresses r) := rfl

lemma length_addresses : ∀ t : Tree (ℕ × β), t.addresses.length = t.size
  | nil => rfl
  | node x l r => by
      rw [addresses_node, List.length_cons, List.length_append, length_addresses l,
        length_addresses r, size]
      omega

end Tree

open CExercises.Tree

section

variable {β : Type} {cells cells' : ℕ → Option (TreeNode β)} {p p' : Ptr} {a : ℕ} {v w : β}
  {t t' l l' r r' : Tree (ℕ × β)}

/-- The nodes reached from `p` spell the tree `t`. -/
def TreeAt (cells : ℕ → Option (TreeNode β)) : Ptr → Tree (ℕ × β) → Prop
  | p, .nil => p = none
  | p, .node x l r => p = some x.1 ∧ ∃ pl pr, cells x.1 = some ⟨x.2, pl, pr⟩
      ∧ TreeAt cells pl l ∧ TreeAt cells pr r

@[simp] lemma treeAt_nil : TreeAt cells p nil ↔ p = none := Iff.rfl

@[simp] lemma treeAt_node {x : ℕ × β} : TreeAt cells p (node x l r)
    ↔ p = some x.1 ∧ ∃ pl pr, cells x.1 = some ⟨x.2, pl, pr⟩
      ∧ TreeAt cells pl l ∧ TreeAt cells pr r := Iff.rfl

/-- **The frame rule.**  A tree only looks at its own addresses. -/
lemma TreeAt.congr (h : TreeAt cells p t) (hcells : ∀ b ∈ addresses t, cells' b = cells b) :
    TreeAt cells' p t := by
  induction t generalizing p with
  | nil => exact h
  | node x l r ihl ihr =>
      obtain ⟨hp, pl, pr, hx, hl, hr⟩ := h
      refine ⟨hp, pl, pr, ?_, ihl hl fun b hb => hcells b ?_, ihr hr fun b hb => hcells b ?_⟩
      · rw [hcells x.1 (by simp), hx]
      · simp [hb]
      · simp [hb]

/-- Every node of a tree is live. -/
lemma TreeAt.live (h : TreeAt cells p t) {b : ℕ} (hb : b ∈ addresses t) : cells b ≠ none := by
  induction t generalizing p with
  | nil => cases hb
  | node x l r ihl ihr =>
      obtain ⟨_, pl, pr, hx, hl, hr⟩ := h
      simp only [addresses_node, List.mem_cons, List.mem_append] at hb
      rcases hb with rfl | hb | hb
      · simp [hx]
      · exact ihl hl hb
      · exact ihr hr hb

/-- The pointer is `NULL` exactly when the tree is empty. -/
lemma TreeAt.eq_none_iff (h : TreeAt cells p t) : p = none ↔ t = nil := by
  cases t with
  | nil => simpa using h
  | node x l r => simp [h.1]

/-- A tree none of whose nodes is reached twice. -/
structure Owns (cells : ℕ → Option (TreeNode β)) (p : Ptr) (t : Tree (ℕ × β)) : Prop where
  treeAt : TreeAt cells p t
  nodup : (addresses t).Nodup

/-- The root of a tree, with its two children and what keeps them apart. -/
lemma Owns.node (h : Owns cells p (node (a, v) l r)) :
    ∃ pl pr, p = some a ∧ cells a = some ⟨v, pl, pr⟩ ∧ Owns cells pl l ∧ Owns cells pr r
      ∧ a ∉ addresses l ∧ a ∉ addresses r ∧ ∀ b ∈ addresses l, b ∉ addresses r := by
  obtain ⟨⟨hp, pl, pr, ha, hl, hr⟩, hnd⟩ := h
  simp only [addresses_node, List.nodup_cons, List.mem_append, not_or,
    List.nodup_append'] at hnd
  obtain ⟨⟨hal, har⟩, hndl, hndr, hdis⟩ := hnd
  exact ⟨pl, pr, hp, ha, ⟨hl, hndl⟩, ⟨hr, hndr⟩, hal, har, fun b hb hb' => hdis hb hb'⟩

/-- A node in front of two trees that keep clear of it and of each other. -/
lemma Owns.mk_node {pl pr : Ptr} (ha : cells a = some ⟨v, pl, pr⟩) (hl : Owns cells pl l)
    (hr : Owns cells pr r) (hal : a ∉ addresses l) (har : a ∉ addresses r)
    (hdis : ∀ b ∈ addresses l, b ∉ addresses r) : Owns cells (some a) (Tree.node (a, v) l r) := by
  refine ⟨⟨rfl, pl, pr, ha, hl.treeAt, hr.treeAt⟩, ?_⟩
  simp only [addresses_node, List.nodup_cons, List.mem_append, not_or, List.nodup_append']
  exact ⟨⟨hal, har⟩, hl.nodup, hr.nodup, fun b hb hb' => hdis b hb hb'⟩

/-! ## What a call may do to a tree -/

/-- From `t` to `t'`, now at `p'`: new nodes were free blocks, dropped nodes are free blocks, and
the rest of the heap is as it was. -/
structure Rewrites (cells cells' : ℕ → Option (TreeNode β)) (t t' : Tree (ℕ × β)) (p' : Ptr) :
    Prop where
  owns : Owns cells' p' t'
  fresh : ∀ b ∈ addresses t', b ∉ addresses t → cells b = none
  freed : ∀ b ∈ addresses t, b ∉ addresses t' → cells' b = none
  frame : ∀ b, b ∉ addresses t → b ∉ addresses t' → cells' b = cells b

/-- Nothing happened. -/
lemma Rewrites.refl (h : Owns cells p t) : Rewrites cells cells t t p :=
  ⟨h, fun _ hb hb' => absurd hb hb', fun _ hb hb' => absurd hb hb', fun _ _ _ => rfl⟩

/-- A fresh block that is not part of a tree in the heap does not become part of it. -/
lemma Rewrites.not_mem {b : ℕ} (h : Rewrites cells cells' t t' p') (hb : b ∉ addresses t)
    (hlive : cells b ≠ none) : b ∉ addresses t' := fun hb' => hlive (h.fresh b hb' hb)

/-- **A live block outside the tree** is as it was. -/
lemma Rewrites.keep {b : ℕ} (h : Rewrites cells cells' t t' p') (hb : b ∉ addresses t)
    (hlive : cells b ≠ none) : cells' b = cells b := h.frame b hb (h.not_mem hb hlive)

/-- **A tree outside the tree** is as it was, and apart from the new one. -/
lemma Rewrites.keep_owns {q : Ptr} {u : Tree (ℕ × β)} (h : Rewrites cells cells' t t' p')
    (hu : Owns cells q u) (hdis : ∀ b ∈ addresses u, b ∉ addresses t) :
    Owns cells' q u ∧ ∀ b ∈ addresses u, b ∉ addresses t' :=
  ⟨⟨hu.treeAt.congr fun b hb => h.keep (hdis b hb) (hu.treeAt.live hb), hu.nodup⟩,
    fun b hb => h.not_mem (hdis b hb) (hu.treeAt.live hb)⟩

/-- **One rewriting after another.** -/
lemma Rewrites.trans {cells'' : ℕ → Option (TreeNode β)} {t'' : Tree (ℕ × β)} {q q' : Ptr}
    (h : Rewrites cells cells' t t' q) (h' : Rewrites cells' cells'' t' t'' q') :
    Rewrites cells cells'' t t'' q' := by
  refine ⟨h'.owns, fun b hb hbt => ?_, fun b hb hbt => ?_, fun b hbt hb => ?_⟩
  · by_cases hb' : b ∈ addresses t'
    · exact h.fresh b hb' hbt
    · rw [← h.frame b hbt hb', h'.fresh b hb hb']
  · by_cases hb' : b ∈ addresses t'
    · exact h'.freed b hb' hbt
    · rw [h'.frame b hb' hbt, h.freed b hb hb']
  · by_cases hb' : b ∈ addresses t'
    · rw [h'.freed b hb' hb, h.fresh b hb' hbt]
    · rw [h'.frame b hb' hb, h.frame b hbt hb']

/-! ## The surgeries -/

/-- A write outside the tree. -/
lemma Owns.update {o : Option (TreeNode β)} (h : Owns cells p t) (ha : a ∉ addresses t) :
    Owns (Function.update cells a o) p t := by
  refine ⟨h.treeAt.congr fun b hb => Function.update_of_ne ?_ _ _, h.nodup⟩
  rintro rfl
  exact ha hb

/-- A new leaf. -/
lemma Rewrites.leaf (ha : cells a = none) :
    Rewrites cells (Function.update cells a (some ⟨v, none, none⟩)) nil (node (a, v) nil nil)
      (some a) := by
  refine ⟨⟨⟨rfl, none, none, Function.update_self _ _ _, rfl, rfl⟩, by simp⟩, ?_, ?_, ?_⟩
  · intro b hb _
    have hba : b = a := by simpa using hb
    rw [hba, ha]
  · intro b hb
    cases hb
  · intro b _ hb
    refine Function.update_of_ne ?_ _ _
    rintro rfl
    exact hb (by simp)

/-- Another value at the root. -/
lemma Rewrites.set_value {pl pr : Ptr} (h : Owns cells p (node (a, v) l r))
    (ha : cells a = some ⟨v, pl, pr⟩) :
    Rewrites cells (Function.update cells a (some ⟨w, pl, pr⟩)) (node (a, v) l r)
      (node (a, w) l r) (some a) := by
  obtain ⟨ql, qr, -, ha', hl, hr, hal, har, hdis⟩ := h.node
  rw [ha] at ha'
  cases ha'
  refine ⟨Owns.mk_node (Function.update_self _ _ _) (hl.update hal) (hr.update har) hal har hdis,
    fun b hb hb' => absurd hb hb', fun b hb hb' => absurd hb hb', fun b hb _ => ?_⟩
  refine Function.update_of_ne ?_ _ _
  rintro rfl
  exact hb (by simp)

/-- **A rewriting of the left child** is one of the parent, once the parent points at it. -/
lemma Rewrites.left {pl pl' pr : Ptr} (h : Owns cells p (node (a, v) l r))
    (ha : cells a = some ⟨v, pl, pr⟩) (hrw : Rewrites cells cells' l l' pl') :
    cells' a = some ⟨v, pl, pr⟩
      ∧ Rewrites cells (Function.update cells' a (some ⟨v, pl', pr⟩)) (node (a, v) l r)
          (node (a, v) l' r) (some a) := by
  obtain ⟨ql, qr, -, ha', hl, hr, hal, har, hdis⟩ := h.node
  rw [ha] at ha'
  cases ha'
  have hlive : cells a ≠ none := by simp [ha]
  have hal' := hrw.not_mem hal hlive
  obtain ⟨hr', hdis'⟩ := hrw.keep_owns hr fun b hb hb' => hdis b hb' hb
  refine ⟨by rw [hrw.keep hal hlive, ha], ?_, fun b hb hb' => ?_, fun b hb hb' => ?_,
    fun b hb hb' => ?_⟩
  · exact Owns.mk_node (Function.update_self _ _ _) (hrw.owns.update hal') (hr'.update har) hal'
      har fun b hb hb' => hdis' b hb' hb
  all_goals simp only [addresses_node, List.mem_cons, List.mem_append, not_or] at hb hb'
  · exact hrw.fresh b (by tauto) hb'.2.1
  · rw [Function.update_of_ne hb'.1]
    exact hrw.freed b (by tauto) hb'.2.1
  · rw [Function.update_of_ne hb'.1, hrw.frame b hb.2.1 hb'.2.1]

/-- **A rewriting of the right child.** -/
lemma Rewrites.right {pl pr pr' : Ptr} (h : Owns cells p (node (a, v) l r))
    (ha : cells a = some ⟨v, pl, pr⟩) (hrw : Rewrites cells cells' r r' pr') :
    cells' a = some ⟨v, pl, pr⟩
      ∧ Rewrites cells (Function.update cells' a (some ⟨v, pl, pr'⟩)) (node (a, v) l r)
          (node (a, v) l r') (some a) := by
  obtain ⟨ql, qr, -, ha', hl, hr, hal, har, hdis⟩ := h.node
  rw [ha] at ha'
  cases ha'
  have hlive : cells a ≠ none := by simp [ha]
  have har' := hrw.not_mem har hlive
  obtain ⟨hl', hdis'⟩ := hrw.keep_owns hl hdis
  refine ⟨by rw [hrw.keep har hlive, ha], ?_, fun b hb hb' => ?_, fun b hb hb' => ?_,
    fun b hb hb' => ?_⟩
  · exact Owns.mk_node (Function.update_self _ _ _) (hl'.update hal) (hrw.owns.update har') hal
      har' hdis'
  all_goals simp only [addresses_node, List.mem_cons, List.mem_append, not_or] at hb hb'
  · exact hrw.fresh b (by tauto) hb'.2.2
  · rw [Function.update_of_ne hb'.1]
    exact hrw.freed b (by tauto) hb'.2.2
  · rw [Function.update_of_ne hb'.1, hrw.frame b hb.2.2 hb'.2.2]

/-- A root without left child is cut out. -/
lemma Rewrites.cut_left {pl pr : Ptr} (h : Owns cells p (node (a, v) nil r))
    (ha : cells a = some ⟨v, pl, pr⟩) :
    Rewrites cells (Function.update cells a none) (node (a, v) nil r) r pr := by
  obtain ⟨ql, qr, -, ha', -, hr, -, har, -⟩ := h.node
  rw [ha] at ha'
  cases ha'
  refine ⟨hr.update har, fun b hb hb' => ?_, fun b hb hb' => ?_, fun b hb _ => ?_⟩
  · exact absurd (by simp [hb]) hb'
  · have hba : b = a := by simpa [hb'] using hb
    rw [hba, Function.update_self]
  · refine Function.update_of_ne ?_ _ _
    rintro rfl
    exact hb (by simp)

/-- A root without right child is cut out. -/
lemma Rewrites.cut_right {pl pr : Ptr} (h : Owns cells p (node (a, v) l nil))
    (ha : cells a = some ⟨v, pl, pr⟩) :
    Rewrites cells (Function.update cells a none) (node (a, v) l nil) l pl := by
  obtain ⟨ql, qr, -, ha', hl, -, hal, -, -⟩ := h.node
  rw [ha] at ha'
  cases ha'
  refine ⟨hl.update hal, fun b hb hb' => ?_, fun b hb hb' => ?_, fun b hb _ => ?_⟩
  · exact absurd (by simp [hb]) hb'
  · have hba : b = a := by simpa [hb'] using hb
    rw [hba, Function.update_self]
  · refine Function.update_of_ne ?_ _ _
    rintro rfl
    exact hb (by simp)

end

/-- **No path is longer than the heap.**  A recursion that goes deeper than `brk` follows a cycle.
-/
lemma Owns.depth_le_brk {β : Type} {m : Memory (TreeNode β)} {p : Ptr} {t : Tree (ℕ × β)}
    (h : Owns m.cells p t) : t.depth ≤ m.brk := by
  have hsub : addresses t ⊆ List.range m.brk := by
    intro b hb
    rcases Option.ne_none_iff_exists'.mp (h.treeAt.live hb) with ⟨n, hn⟩
    exact List.mem_range.mpr (Memory.lt_brk hn)
  have hle := (List.subperm_of_subset h.nodup hsub).length_le
  rw [List.length_range] at hle
  rw [length_addresses] at hle
  exact le_trans (depth_le_size t) hle

end CExercises
