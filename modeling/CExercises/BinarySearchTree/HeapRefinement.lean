import CExercises.BinarySearchTree.HeapDef

/-!
# The heap carries out what the trees say

For every function of `bst.c` one lemma: run on the nodes of a tree, with a budget that exceeds its
depth, it returns what the function of `Def.lean` returns on the tree's values.  The functions that
change the tree rewrite it (`Rewrites`): they allocate and free the nodes they should, and no other
block of the heap changes.

`Represents` is the simulation.  It says in addition that the heap holds nothing but the tree, so
that a node that was dropped without being freed, or freed while still in use, would break it.
-/

namespace CExercises.BinarySearchTree.Heap

open CExercises.Tree

variable {m : Memory Node} {a : ℕ} {n : Node} {p : Ptr} {t : Tree (ℕ × ℤ)} {fuel : ℕ}

/-! ## Accesses -/

lemma loadValue_eq (h : m.cells a = some n) : loadValue m (some a) = .ok n.value := by
  simp [loadValue, Memory.load_of_live h]

lemma loadLeft_eq (h : m.cells a = some n) : loadLeft m (some a) = .ok n.left := by
  simp [loadLeft, Memory.load_of_live h]

lemma loadRight_eq (h : m.cells a = some n) : loadRight m (some a) = .ok n.right := by
  simp [loadRight, Memory.load_of_live h]

lemma storeValue_eq (h : m.cells a = some n) (value : ℤ) :
    ∃ m', storeValue m (some a) value = .ok m'
      ∧ m'.cells = Function.update m.cells a (some { n with value := value }) := by
  refine ⟨m.write a (some { n with value := value }) (Memory.lt_brk h), ?_, rfl⟩
  simp [storeValue, Memory.load_of_live h, Memory.store_of_live h]

lemma storeLeft_eq (h : m.cells a = some n) (q : Ptr) :
    ∃ m', storeLeft m (some a) q = .ok m'
      ∧ m'.cells = Function.update m.cells a (some { n with left := q }) := by
  refine ⟨m.write a (some { n with left := q }) (Memory.lt_brk h), ?_, rfl⟩
  simp [storeLeft, Memory.load_of_live h, Memory.store_of_live h]

lemma storeRight_eq (h : m.cells a = some n) (q : Ptr) :
    ∃ m', storeRight m (some a) q = .ok m'
      ∧ m'.cells = Function.update m.cells a (some { n with right := q }) := by
  refine ⟨m.write a (some { n with right := q }) (Memory.lt_brk h), ?_, rfl⟩
  simp [storeRight, Memory.load_of_live h, Memory.store_of_live h]

lemma free_eq (h : m.cells a = some n) :
    ∃ m', m.free (some a) = .ok m' ∧ m'.cells = Function.update m.cells a none :=
  ⟨m.write a none (Memory.lt_brk h), Memory.free_of_live h, rfl⟩

/-- One unfolding of a recursion that goes deeper than the tree. -/
lemma exists_succ {x : ℕ × ℤ} {l r : Tree (ℕ × ℤ)} (h : (node x l r).depth < fuel) :
    ∃ k, fuel = k + 1 ∧ l.depth < k ∧ r.depth < k := by
  simp only [depth] at h
  exact ⟨fuel - 1, by omega, by omega, by omega⟩

lemma exists_pred (h : (nil : Tree (ℕ × ℤ)).depth < fuel) : ∃ k, fuel = k + 1 := by
  simp only [depth] at h
  exact ⟨fuel - 1, by omega⟩

/-- **The induction of every function that only reads.**  Below a node of the tree the budget is
one less, and enough for both children. -/
@[elab_as_elim]
lemma walk_induction {motive : ℕ → Ptr → Tree (ℕ × ℤ) → Prop}
    (hnil : ∀ k, motive (k + 1) none nil)
    (hnode : ∀ k x l r pl pr, m.cells x.1 = some ⟨x.2, pl, pr⟩ →
      Owns m.cells (some x.1) (node x l r) → Owns m.cells pl l → Owns m.cells pr r →
      motive k pl l → motive k pr r → motive (k + 1) (some x.1) (node x l r))
    (h : Owns m.cells p t) (hfuel : t.depth < fuel) : motive fuel p t := by
  induction t generalizing p fuel with
  | nil =>
      obtain ⟨k, rfl⟩ := exists_pred hfuel
      obtain rfl : p = none := h.treeAt
      exact hnil k
  | node x l r ihl ihr =>
      obtain ⟨k, rfl, hkl, hkr⟩ := exists_succ hfuel
      obtain ⟨pl, pr, rfl, ha, hl, hr, -⟩ := h.node
      exact hnode k x l r pl pr ha h hl hr (ihl hl hkl) (ihr hr hkr)

/-! ## Searching -/

/-- The functions that return a node return the one that roots the tree they should. -/
lemma bstSearch_spec (value : ℤ) (h : Owns m.cells p t) (hfuel : t.depth < fuel) :
    ∃ q u, bstSearch fuel m p value = .ok q ∧ Owns m.cells q u
      ∧ u.map Prod.snd = BinarySearchTree.bstSearch (t.map Prod.snd) value := by
  refine walk_induction (fun k => ?_) (fun k x l r pl pr ha h hl hr ihl ihr => ?_) h hfuel
  · exact ⟨none, nil, rfl, ⟨rfl, List.nodup_nil⟩, rfl⟩
  · simp only [bstSearch, reduceCtorEq, if_false, loadValue_eq ha, loadLeft_eq ha,
      loadRight_eq ha, ok_bind, map_node, BinarySearchTree.bstSearch]
    split_ifs with heq hlt
    · exact ⟨some x.1, node x l r, rfl, h, rfl⟩
    · exact ihl
    · exact ihr

lemma bstMin_spec (h : Owns m.cells p t) (hfuel : t.depth < fuel) :
    ∃ q u, bstMin fuel m p = .ok q ∧ Owns m.cells q u ∧ addresses u ⊆ addresses t
      ∧ u.map Prod.snd = BinarySearchTree.bstMin (t.map Prod.snd) := by
  refine walk_induction (fun k => ?_) (fun k x l r pl pr ha h hl hr ihl ihr => ?_) h hfuel
  · exact ⟨none, nil, rfl, ⟨rfl, List.nodup_nil⟩, List.Subset.refl _, rfl⟩
  · simp only [bstMin, reduceCtorEq, if_false, loadLeft_eq ha, ok_bind, map_node,
      BinarySearchTree.bstMin, hl.treeAt.eq_none_iff, map_eq_nil_iff]
    split_ifs with hnil
    · exact ⟨some x.1, node x l r, rfl, h, List.Subset.refl _, rfl⟩
    · rcases ihl with ⟨q, u, hrun, hu, hsub, hval⟩
      refine ⟨q, u, hrun, hu, fun b hb => ?_, hval⟩
      simp [hsub hb]

/-- The leftmost node of a tree that is not empty. -/
lemma bstMin_ne_nil {t : Tree ℤ} (h : t ≠ nil) : BinarySearchTree.bstMin t ≠ nil := by
  induction t with
  | nil => exact absurd rfl h
  | node v l r ihl _ =>
      simp only [BinarySearchTree.bstMin]
      split_ifs with hnil
      · exact h
      · exact ihl hnil

lemma bstMax_spec (h : Owns m.cells p t) (hfuel : t.depth < fuel) :
    ∃ q u, bstMax fuel m p = .ok q ∧ Owns m.cells q u
      ∧ u.map Prod.snd = BinarySearchTree.bstMax (t.map Prod.snd) := by
  refine walk_induction (fun k => ?_) (fun k x l r pl pr ha h hl hr ihl ihr => ?_) h hfuel
  · exact ⟨none, nil, rfl, ⟨rfl, List.nodup_nil⟩, rfl⟩
  · simp only [bstMax, reduceCtorEq, if_false, loadRight_eq ha, ok_bind, map_node,
      BinarySearchTree.bstMax, hr.treeAt.eq_none_iff, map_eq_nil_iff]
    split_ifs with hnil
    · exact ⟨some x.1, node x l r, rfl, h, rfl⟩
    · exact ihr

/-- `p->value` at the root of a tree, `NULL` included. -/
lemma loadValue_root (h : Owns m.cells p t) :
    loadValue m p = BinarySearchTree.loadValue (t.map Prod.snd) := by
  cases t with
  | nil =>
      obtain rfl : p = none := h.treeAt
      rfl
  | node x l r =>
      obtain ⟨pl, pr, rfl, ha, _⟩ := h.node
      exact loadValue_eq ha

/-! ## Inserting, deleting, freeing -/

lemma bstInsert_spec (M : Malloc Node) (value : ℤ) (h : Owns m.cells p t)
    (hfuel : t.depth < fuel) :
    ∃ m' p' t', bstInsert M fuel m p value = .ok (m', p') ∧ Rewrites m.cells m'.cells t t' p'
      ∧ t'.map Prod.snd = BinarySearchTree.bstInsert (t.map Prod.snd) value := by
  induction t generalizing p fuel with
  | nil =>
      obtain ⟨k, rfl⟩ := exists_pred hfuel
      obtain rfl : p = none := h.treeAt
      exact ⟨(nodeCreate M m value).2, some (M.place m), node (M.place m, value) nil nil, rfl,
        Rewrites.leaf (M.fresh m), rfl⟩
  | node x l r ihl ihr =>
      obtain ⟨k, rfl, hkl, hkr⟩ := exists_succ hfuel
      obtain ⟨pl, pr, rfl, ha, hl, hr, -⟩ := h.node
      simp only [bstInsert, reduceCtorEq, if_false, loadValue_eq ha, loadLeft_eq ha,
        loadRight_eq ha, ok_bind, map_node, BinarySearchTree.bstInsert]
      split_ifs with hlt hgt
      · rcases ihl hl hkl with ⟨m', pl', l', hrun, hrw, hval⟩
        rcases Rewrites.left h ha hrw with ⟨ha', hrw'⟩
        rcases storeLeft_eq ha' pl' with ⟨m'', hstore, hcells⟩
        refine ⟨m'', some x.1, node x l' r, by simp [hrun, hstore], ?_, by rw [map_node, hval]⟩
        rw [hcells]
        exact hrw'
      · rcases ihr hr hkr with ⟨m', pr', r', hrun, hrw, hval⟩
        rcases Rewrites.right h ha hrw with ⟨ha', hrw'⟩
        rcases storeRight_eq ha' pr' with ⟨m'', hstore, hcells⟩
        refine ⟨m'', some x.1, node x l r', by simp [hrun, hstore], ?_, by rw [map_node, hval]⟩
        rw [hcells]
        exact hrw'
      · exact ⟨m, some x.1, node x l r, rfl, Rewrites.refl h, rfl⟩

lemma bstDelete_spec (value : ℤ) (h : Owns m.cells p t) (hfuel : t.depth < fuel) :
    ∃ m' p' t', bstDelete fuel m p value = .ok (m', p') ∧ Rewrites m.cells m'.cells t t' p'
      ∧ BinarySearchTree.bstDelete (t.map Prod.snd) value = .ok (t'.map Prod.snd) := by
  induction t generalizing p fuel m value with
  | nil =>
      obtain ⟨k, rfl⟩ := exists_pred hfuel
      obtain rfl : p = none := h.treeAt
      exact ⟨m, none, nil, rfl, Rewrites.refl h, rfl⟩
  | node x l r ihl ihr =>
      obtain ⟨k, rfl, hkl, hkr⟩ := exists_succ hfuel
      obtain ⟨pl, pr, rfl, ha, hl, hr, hal, har, hdis⟩ := h.node
      simp only [bstDelete, reduceCtorEq, if_false, loadValue_eq ha, loadLeft_eq ha,
        loadRight_eq ha, ok_bind, map_node, BinarySearchTree.bstDelete, hl.treeAt.eq_none_iff,
        hr.treeAt.eq_none_iff, map_eq_nil_iff]
      split_ifs with hlt hgt hlnil hrnil
      · rcases ihl value hl hkl with ⟨m', pl', l', hrun, hrw, hval⟩
        rcases Rewrites.left h ha hrw with ⟨ha', hrw'⟩
        rcases storeLeft_eq ha' pl' with ⟨m'', hstore, hcells⟩
        refine ⟨m'', some x.1, node x l' r, by simp [hrun, hstore], ?_, by simp [hval]⟩
        rw [hcells]
        exact hrw'
      · rcases ihr value hr hkr with ⟨m', pr', r', hrun, hrw, hval⟩
        rcases Rewrites.right h ha hrw with ⟨ha', hrw'⟩
        rcases storeRight_eq ha' pr' with ⟨m'', hstore, hcells⟩
        refine ⟨m'', some x.1, node x l r', by simp [hrun, hstore], ?_, by simp [hval]⟩
        rw [hcells]
        exact hrw'
      · subst hlnil
        rcases free_eq ha with ⟨m', hfree, hcells⟩
        refine ⟨m', pr, r, by simp [hfree], ?_, rfl⟩
        rw [hcells]
        exact Rewrites.cut_left h ha
      · subst hrnil
        rcases free_eq ha with ⟨m', hfree, hcells⟩
        refine ⟨m', pl, l, by simp [hfree], ?_, rfl⟩
        rw [hcells]
        exact Rewrites.cut_right h ha
      · -- the successor's value goes into the root before the successor leaves the right subtree
        rcases bstMin_spec hr hkr with ⟨q, u, hmin, hu, hsub, hmin'⟩
        have hrne : r.map Prod.snd ≠ nil := fun hmap => hrnil (map_eq_nil_iff.mp hmap)
        have hune : u ≠ nil := by
          intro hnil
          refine bstMin_ne_nil hrne ?_
          rw [← hmin', hnil, map_nil]
        cases u with
        | nil => exact absurd rfl hune
        | node y ul ur =>
            obtain ⟨ql, qr, rfl, hy, -⟩ := hu.node
            have hyx : y.1 ≠ x.1 := by
              intro heq
              exact har (heq ▸ hsub (by simp))
            rcases storeValue_eq ha y.2 with ⟨m₁, hstore₁, hcells₁⟩
            have ha₁ : m₁.cells x.1 = some ⟨y.2, pl, pr⟩ := by
              rw [hcells₁, Function.update_self]
            have hy₁ : m₁.cells y.1 = some ⟨y.2, ql, qr⟩ := by
              rw [hcells₁, Function.update_of_ne hyx, hy]
            have hset := Rewrites.set_value (w := y.2) h ha
            rw [← hcells₁] at hset
            rcases ihr y.2 (hcells₁ ▸ hr.update har) hkr with ⟨m₂, pr', r', hrun, hrw, hval⟩
            rcases Rewrites.right hset.owns ha₁ hrw with ⟨ha₂, hrw'⟩
            rcases storeRight_eq ha₂ pr' with ⟨m₃, hstore₃, hcells₃⟩
            have hload : BinarySearchTree.loadValue (BinarySearchTree.bstMin (r.map Prod.snd))
                = .ok y.2 := by
              rw [← hmin']
              rfl
            refine ⟨m₃, some x.1, node (x.1, y.2) l r', ?_, ?_, ?_⟩
            · simp [hmin, loadValue_eq hy, hstore₁, loadRight_eq ha₁, loadValue_eq hy₁, hrun,
                hstore₃]
            · rw [hcells₃]
              exact hset.trans hrw'
            · simp [hload, hval]

/-- **`bst_free`** gives every node back, and no other block. -/
lemma bstFree_spec (h : Owns m.cells p t) (hfuel : t.depth < fuel) :
    ∃ m', bstFree fuel m p = .ok m' ∧ (∀ b ∈ addresses t, m'.cells b = none)
      ∧ ∀ b, b ∉ addresses t → m'.cells b = m.cells b := by
  induction t generalizing p fuel m with
  | nil =>
      obtain ⟨k, rfl⟩ := exists_pred hfuel
      obtain rfl : p = none := h.treeAt
      exact ⟨m, rfl, fun b hb => absurd hb List.not_mem_nil, fun _ _ => rfl⟩
  | node x l r ihl ihr =>
      obtain ⟨k, rfl, hkl, hkr⟩ := exists_succ hfuel
      obtain ⟨pl, pr, rfl, ha, hl, hr, hal, har, hdis⟩ := h.node
      rcases ihl hl hkl with ⟨m₁, hrun₁, hfreed₁, hframe₁⟩
      have ha₁ : m₁.cells x.1 = some ⟨x.2, pl, pr⟩ := by rw [hframe₁ _ hal, ha]
      have hr₁ : Owns m₁.cells pr r :=
        ⟨hr.treeAt.congr fun b hb => hframe₁ b fun hb' => hdis b hb' hb, hr.nodup⟩
      rcases ihr hr₁ hkr with ⟨m₂, hrun₂, hfreed₂, hframe₂⟩
      have ha₂ : m₂.cells x.1 = some ⟨x.2, pl, pr⟩ := by rw [hframe₂ _ har, ha₁]
      rcases free_eq ha₂ with ⟨m₃, hfree, hcells₃⟩
      refine ⟨m₃, ?_, fun b hb => ?_, fun b hb => ?_⟩
      · simp [bstFree, loadLeft_eq ha, hrun₁, loadRight_eq ha₁, hrun₂, hfree]
      · rw [hcells₃]
        by_cases hbx : b = x.1
        · rw [hbx, Function.update_self]
        · rw [Function.update_of_ne hbx]
          by_cases hbr : b ∈ addresses r
          · exact hfreed₂ b hbr
          · rw [hframe₂ b hbr]
            refine hfreed₁ b ?_
            simpa [hbx, hbr] using hb
      · simp only [addresses_node, List.mem_cons, List.mem_append, not_or] at hb
        rw [hcells₃, Function.update_of_ne hb.1, hframe₂ b hb.2.2, hframe₁ b hb.2.1]

/-! ## Traversing -/

/-- A traversal of the heap, node by node, is the traversal of the tree. -/
lemma bstInorder_spec (h : Owns m.cells p t) (hfuel : t.depth < fuel) :
    bstInorder fuel m p = .ok (BinarySearchTree.bstInorder (t.map Prod.snd)) := by
  refine walk_induction (fun k => rfl) (fun k x l r pl pr ha _ _ _ ihl ihr => ?_) h hfuel
  simp [bstInorder, loadValue_eq ha, loadLeft_eq ha, loadRight_eq ha, ihl, ihr,
    BinarySearchTree.bstInorder]

lemma bstPreorder_spec (h : Owns m.cells p t) (hfuel : t.depth < fuel) :
    bstPreorder fuel m p = .ok (BinarySearchTree.bstPreorder (t.map Prod.snd)) := by
  refine walk_induction (fun k => rfl) (fun k x l r pl pr ha _ _ _ ihl ihr => ?_) h hfuel
  simp [bstPreorder, loadValue_eq ha, loadLeft_eq ha, loadRight_eq ha, ihl, ihr,
    BinarySearchTree.bstPreorder]

lemma bstPostorder_spec (h : Owns m.cells p t) (hfuel : t.depth < fuel) :
    bstPostorder fuel m p = .ok (BinarySearchTree.bstPostorder (t.map Prod.snd)) := by
  refine walk_induction (fun k => rfl) (fun k x l r pl pr ha _ _ _ ihl ihr => ?_) h hfuel
  simp [bstPostorder, loadValue_eq ha, loadLeft_eq ha, loadRight_eq ha, ihl, ihr,
    BinarySearchTree.bstPostorder]

/-- The two counting functions overflow where those of the tree do. -/
lemma bstHeight_spec (h : Owns m.cells p t) (hfuel : t.depth < fuel) :
    bstHeight fuel m p = BinarySearchTree.bstHeight (t.map Prod.snd) := by
  refine walk_induction (fun k => rfl) (fun k x l r pl pr ha _ _ _ ihl ihr => ?_) h hfuel
  simp [bstHeight, loadLeft_eq ha, loadRight_eq ha, ihl, ihr, BinarySearchTree.bstHeight]

lemma bstCount_spec (h : Owns m.cells p t) (hfuel : t.depth < fuel) :
    bstCount fuel m p = BinarySearchTree.bstCount (t.map Prod.snd) := by
  refine walk_induction (fun k => rfl) (fun k x l r pl pr ha _ _ _ ihl ihr => ?_) h hfuel
  simp [bstCount, loadLeft_eq ha, loadRight_eq ha, ihl, ihr, BinarySearchTree.bstCount]

/-- `bst_print`, also where `depth + 1` overflows. -/
lemma bstPrint_spec (d : ℤ) (h : Owns m.cells p t) (hfuel : t.depth < fuel) :
    bstPrint fuel m p d = BinarySearchTree.bstPrint (t.map Prod.snd) d := by
  revert d
  refine walk_induction (fun k d => rfl) (fun k x l r pl pr ha _ _ _ ihl ihr d => ?_) h hfuel
  simp [bstPrint, loadValue_eq ha, loadLeft_eq ha, loadRight_eq ha, ihl, ihr,
    BinarySearchTree.bstPrint]

/-! ## Runs -/

/-- The heap holds the tree at `root`, with these values, and nothing else. -/
def Represents (s : State) (t : Tree ℤ) : Prop :=
  ∃ u, Owns s.mem.cells s.root u ∧ u.map Prod.snd = t
    ∧ ∀ b, s.mem.cells b ≠ none → b ∈ addresses u

lemma represents_empty : Represents ⟨Memory.empty, none⟩ nil :=
  ⟨nil, ⟨rfl, List.nodup_nil⟩, rfl, fun _ hb => absurd rfl hb⟩

/-- After a rewriting of the one tree in the heap there is still only one. -/
lemma represents_of_rewrites {s : State} {u u' : Tree (ℕ × ℤ)} {m' : Memory Node} {p' : Ptr}
    (hrw : Rewrites s.mem.cells m'.cells u u' p')
    (honly : ∀ b, s.mem.cells b ≠ none → b ∈ addresses u) :
    Represents ⟨m', p'⟩ (u'.map Prod.snd) := by
  refine ⟨u', hrw.owns, rfl, fun b hb => ?_⟩
  by_contra hb'
  by_cases hbu : b ∈ addresses u
  · exact hb (hrw.freed b hbu hb')
  · refine hbu (honly b ?_)
    rw [← hrw.frame b hbu hb']
    exact hb

/-- **Step.** -/
lemma represents_call (M : Malloc Node) {s : State} {t : Tree ℤ} (h : Represents s t) (c : Call) :
    ∃ s' t', call M s c = .ok s' ∧ BinarySearchTree.call t c = .ok t' ∧ Represents s' t' := by
  obtain ⟨u, howns, rfl, honly⟩ := h
  have hfuel : u.depth < s.mem.brk + 1 := Nat.lt_succ_of_le howns.depth_le_brk
  cases c with
  | insert value =>
      rcases bstInsert_spec M value howns hfuel with ⟨m', p', u', hrun, hrw, hval⟩
      refine ⟨⟨m', p'⟩, _, by simp [call, hrun], rfl, ?_⟩
      rw [← hval]
      exact represents_of_rewrites hrw honly
  | delete value =>
      rcases bstDelete_spec value howns hfuel with ⟨m', p', u', hrun, hrw, hval⟩
      exact ⟨⟨m', p'⟩, _, by simp [call, hrun], hval, represents_of_rewrites hrw honly⟩

/-- **Run.** -/
lemma represents_run (M : Malloc Node) (cs : List Call) {s : State} {t : Tree ℤ}
    (h : Represents s t) :
    ∃ s' t', cs.foldlM (call M) s = .ok s' ∧ cs.foldlM BinarySearchTree.call t = .ok t'
      ∧ Represents s' t' := by
  induction cs generalizing s t with
  | nil => exact ⟨s, t, rfl, rfl, h⟩
  | cons c cs ih =>
      rcases represents_call M h c with ⟨s₁, t₁, hs, ht, h₁⟩
      rcases ih h₁ with ⟨s', t', hs', ht', h'⟩
      exact ⟨s', t', by simp [List.foldlM_cons, hs, hs'], by simp [List.foldlM_cons, ht, ht'], h'⟩

/-- What a client asks on the heap is what the tree answers. -/
lemma ask_eq {s : State} {t : Tree ℤ} (h : Represents s t) (q : Query) : ask s q = askTree t q := by
  obtain ⟨u, howns, rfl, -⟩ := h
  have hfuel : u.depth < s.mem.brk + 1 := Nat.lt_succ_of_le howns.depth_le_brk
  cases q with
  | contains value =>
      rcases bstSearch_spec value howns hfuel with ⟨q, v, hrun, hv, hval⟩
      simp [ask, askTree, bstContains, BinarySearchTree.bstContains, hrun, ← hval,
        hv.treeAt.eq_none_iff, map_eq_nil_iff]
  | min =>
      rcases bstMin_spec howns hfuel with ⟨q, v, hrun, hv, _, hval⟩
      simp [ask, askTree, hrun, ← hval, loadValue_root hv]
  | max =>
      rcases bstMax_spec howns hfuel with ⟨q, v, hrun, hv, hval⟩
      simp [ask, askTree, hrun, ← hval, loadValue_root hv]
  | inorder => simp [ask, askTree, bstInorder_spec howns hfuel]
  | preorder => simp [ask, askTree, bstPreorder_spec howns hfuel]
  | postorder => simp [ask, askTree, bstPostorder_spec howns hfuel]
  | height => simp [ask, askTree, bstHeight_spec howns hfuel]
  | count => simp [ask, askTree, bstCount_spec howns hfuel]
  | print depth => simp [ask, askTree, bstPrint_spec depth howns hfuel]

/-- **The pointers implement the trees**, and nothing leaks: after any calls the heap holds exactly
the nodes of the tree, and `bst_free` leaves it empty. -/
theorem bst_heap_refines_tree (M : Malloc Node) (cs : List Call) :
    ∃ s t m', run M cs = .ok s ∧ BinarySearchTree.run cs = .ok t ∧ Represents s t
      ∧ bstFree (s.mem.brk + 1) s.mem s.root = .ok m' ∧ ∀ b, m'.cells b = none := by
  rcases represents_run M cs represents_empty with ⟨s, t, hs, ht, h⟩
  obtain ⟨u, howns, hval, honly⟩ := h
  rcases bstFree_spec howns (Nat.lt_succ_of_le howns.depth_le_brk) with ⟨m', hfree, hfreed, hframe⟩
  refine ⟨s, t, m', hs, ht, ⟨u, howns, hval, honly⟩, hfree, fun b => ?_⟩
  by_cases hb : b ∈ addresses u
  · exact hfreed b hb
  · rw [hframe b hb]
    by_contra hlive
    exact hb (honly b hlive)

/-- **Every question is answered alike** after any calls, where the answer is a fault included. -/
theorem bst_heap_answers_tree (M : Malloc Node) (cs : List Call) (q : Query) :
    ∃ s t, run M cs = .ok s ∧ BinarySearchTree.run cs = .ok t ∧ ask s q = askTree t q := by
  rcases represents_run M cs represents_empty with ⟨s, t, hs, ht, h⟩
  exact ⟨s, t, hs, ht, ask_eq h q⟩

end CExercises.BinarySearchTree.Heap
