import CExercises.LinkedList.Refinement

/-!
# What a list shows, and that it gives everything back

`size` is changed in six places of `linked_lists.c`, and so is the set of live blocks.  `Balanced`
says that a function changes both by the same amount.  It is read off each function line by line,
without a word about chains; for a list that starts empty it makes `size` the number of live blocks,
and a chain of `size` nodes is then, besides the header, all there is to free.
-/

namespace CExercises.LinkedList

/-- From `s` to `s'`, as many blocks came or went as `size` says. -/
def Balanced (s s' : State) : Prop :=
  (s'.mem.blocks : ℤ) - s.mem.blocks = s'.list.size - s.list.size

section

variable {M : Malloc Node} {s s' s'' : State}

lemma Balanced.trans (h : Balanced s s') (h' : Balanced s' s'') : Balanced s s'' := by
  unfold Balanced at *
  omega

lemma balanced_refl (s : State) : Balanced s s := by
  simp [Balanced]

lemma balanced_grow {m : Memory Node} {head : Ptr} {size : ℤ} (hsize : intSucc s.list.size = .ok size)
    (h : m.blocks = s.mem.blocks + 1) : Balanced s ⟨m, ⟨head, size⟩⟩ := by
  rw [intSucc_inv hsize]
  simp only [Balanced, h]
  omega

lemma balanced_shrink {m : Memory Node} {head : Ptr} {size : ℤ}
    (hsize : intPred s.list.size = .ok size) (h : m.blocks + 1 = s.mem.blocks) :
    Balanced s ⟨m, ⟨head, size⟩⟩ := by
  rw [intPred_inv hsize]
  simp only [Balanced]
  omega

lemma balanced_pushFront {value : ℤ} (h : listPushFront M s value = .ok s') : Balanced s s' := by
  simp only [listPushFront] at h
  obtain ⟨m, hm, h⟩ := bind_eq_ok.mp h
  obtain ⟨size, hsize, h⟩ := bind_eq_ok.mp h
  cases h
  exact balanced_grow hsize (by rw [blocks_storeNext hm, blocks_nodeCreate])

lemma balanced_pushBack {value : ℤ} (h : listPushBack M s value = .ok s') : Balanced s s' := by
  simp only [listPushBack] at h
  split at h
  · obtain ⟨size, hsize, h⟩ := bind_eq_ok.mp h
    cases h
    exact balanced_grow hsize (blocks_nodeCreate M value)
  · obtain ⟨cur, _, h⟩ := bind_eq_ok.mp h
    obtain ⟨m, hm, h⟩ := bind_eq_ok.mp h
    obtain ⟨size, hsize, h⟩ := bind_eq_ok.mp h
    cases h
    exact balanced_grow hsize (by rw [blocks_storeNext hm, blocks_nodeCreate])

lemma balanced_insertAfter {cur : Ptr} {value : ℤ} (h : insertAfter M s cur value = .ok s') :
    Balanced s s' := by
  simp only [insertAfter] at h
  obtain ⟨next, _, h⟩ := bind_eq_ok.mp h
  obtain ⟨m, hm, h⟩ := bind_eq_ok.mp h
  obtain ⟨m', hm', h⟩ := bind_eq_ok.mp h
  obtain ⟨size, hsize, h⟩ := bind_eq_ok.mp h
  cases h
  exact balanced_grow hsize (by rw [blocks_storeNext hm', blocks_storeNext hm, blocks_nodeCreate])

lemma balanced_insertAt {index value : ℤ} (h : listInsertAt M s index value = .ok s') :
    Balanced s s' := by
  simp only [listInsertAt] at h
  split at h
  · exact balanced_pushFront h
  · obtain ⟨cur, _, h⟩ := bind_eq_ok.mp h
    exact balanced_insertAfter h

lemma balanced_popFront {val : ℤ} (h : listPopFront s = .ok (val, s')) : Balanced s s' := by
  simp only [listPopFront] at h
  split at h
  · cases h
  · rename_i hhead
    obtain ⟨v, _, h⟩ := bind_eq_ok.mp h
    obtain ⟨next, _, h⟩ := bind_eq_ok.mp h
    obtain ⟨m, hm, h⟩ := bind_eq_ok.mp h
    obtain ⟨size, hsize, h⟩ := bind_eq_ok.mp h
    cases h
    exact balanced_shrink hsize (Memory.blocks_free hhead hm)

lemma balanced_unlinkAfter {prev : Ptr} (h : unlinkAfter s prev = .ok s') : Balanced s s' := by
  obtain ⟨target, _, h⟩ := bind_eq_ok.mp h
  split at h
  · cases h
    exact balanced_refl s
  · rename_i htarget
    obtain ⟨next, _, h⟩ := bind_eq_ok.mp h
    obtain ⟨m, hm, h⟩ := bind_eq_ok.mp h
    obtain ⟨m', hm', h⟩ := bind_eq_ok.mp h
    obtain ⟨size, hsize, h⟩ := bind_eq_ok.mp h
    cases h
    exact balanced_shrink hsize (by rw [Memory.blocks_free htarget hm', blocks_storeNext hm])

/-- The two ways out of a delete function: the head is popped, or a node behind it is unlinked. -/
lemma balanced_pop_or_unlink {walk : Except Stop Ptr} {c : Prop} [Decidable c]
    (h : (if c then (do let (_, s) ← listPopFront s; return s)
      else walk >>= fun prev => unlinkAfter s prev) = .ok s') : Balanced s s' := by
  split at h
  · obtain ⟨r, hr, h⟩ := bind_eq_ok.mp h
    cases h
    exact balanced_popFront hr
  · obtain ⟨prev, _, h⟩ := bind_eq_ok.mp h
    exact balanced_unlinkAfter h

lemma balanced_deleteValue {value : ℤ} (h : listDeleteValue s value = .ok s') :
    Balanced s s' := by
  simp only [listDeleteValue] at h
  split at h
  · cases h
    exact balanced_refl s
  · obtain ⟨v, _, h⟩ := bind_eq_ok.mp h
    exact balanced_pop_or_unlink h

lemma balanced_deleteAt {index : ℤ} (h : listDeleteAt s index = .ok s') : Balanced s s' := by
  simp only [listDeleteAt] at h
  split at h
  · cases h
    exact balanced_refl s
  · exact balanced_pop_or_unlink h

lemma blocks_reverseFrom : ∀ (fuel : ℕ) {m m' : Memory Node} {prev cur p : Ptr},
    reverseFrom fuel m prev cur = .ok (m', p) → m'.blocks = m.blocks
  | 0, _, _, _, _, _, h => by cases h
  | fuel + 1, m, m', prev, cur, p, h => by
      simp only [reverseFrom] at h
      split at h
      · cases h
        rfl
      · obtain ⟨next, _, h⟩ := bind_eq_ok.mp h
        obtain ⟨m₁, hm₁, h⟩ := bind_eq_ok.mp h
        rw [blocks_reverseFrom fuel h, blocks_storeNext hm₁]

lemma balanced_call {c : Call} {o : Option ℤ} (h : call M s c = .ok (s', o)) : Balanced s s' := by
  cases c with
  | pushFront value =>
      obtain ⟨t, ht, h⟩ := bind_eq_ok.mp h
      cases h
      exact balanced_pushFront ht
  | pushBack value =>
      obtain ⟨t, ht, h⟩ := bind_eq_ok.mp h
      cases h
      exact balanced_pushBack ht
  | insertAt index value =>
      obtain ⟨t, ht, h⟩ := bind_eq_ok.mp h
      cases h
      exact balanced_insertAt ht
  | popFront =>
      obtain ⟨r, hr, h⟩ := bind_eq_ok.mp h
      cases h
      exact balanced_popFront hr
  | deleteValue value =>
      obtain ⟨t, ht, h⟩ := bind_eq_ok.mp h
      cases h
      exact balanced_deleteValue ht
  | deleteAt index =>
      obtain ⟨t, ht, h⟩ := bind_eq_ok.mp h
      cases h
      exact balanced_deleteAt ht
  | reverse =>
      obtain ⟨t, ht, h⟩ := bind_eq_ok.mp h
      cases h
      obtain ⟨r, hr, ht⟩ := bind_eq_ok.mp ht
      cases ht
      simp [Balanced, blocks_reverseFrom _ hr]

lemma balanced_run : ∀ (cs : List Call) {s s' : State} {rets : List (Option ℤ)},
    runCalls (call M) s cs = .ok (s', rets) → Balanced s s'
  | [], s, _, _, h => by
      cases h
      exact balanced_refl s
  | c :: cs, s, s', rets, h => by
      obtain ⟨s₁, o, os, hstep, hrest, _⟩ := runCalls_cons_inv h
      exact (balanced_call hstep).trans (balanced_run cs hrest)

variable {xs : List (ℕ × ℤ)}

lemma Represents.print (h : Represents s xs) :
    listPrint s = .ok ("size=" ++ toString (xs.length : ℤ) ++ "  ["
      ++ " -> ".intercalate ((payloads xs).map toString) ++ "]\n") := by
  have hlen := h.chain.length_le_brk
  have hshown := printChain_eq (m := s.mem) (f := nodeView) toString " -> " (s.mem.brk + 1) h.chain
    (by omega)
  simp [listPrint, hshown, h.size]

lemma Represents.free (h : Represents s xs) (hblocks : s.mem.blocks = xs.length) :
    ∃ m, freeNodes s = .ok m ∧ ∀ p, m.cells p = none := by
  have hlen := h.chain.length_le_brk
  obtain ⟨m, hm, hgone, _⟩ := freeChain_eq (f := nodeView) (s.mem.brk + 1) h.chain (by omega)
  exact ⟨m, hm, Memory.blocks_eq_zero.mp (by omega)⟩

end

/-- **The life of a list.**  Wherever a client's calls through the pointer have led, `list_print`
shows the sequence they stand for, `list_get` reads it, there is one header and one node for each
element, and `list_free` gives all of them back. -/
theorem list_run_prints_and_frees (MH : Malloc Header) (M : Malloc Node) (cs : List Call) :
    match abstractRun cs with
    | .ok (vs, rets) =>
        ∃ list gone, runPtr MH M cs = .ok (list, rets)
          ∧ list.headers.blocks = 1 ∧ list.rest.blocks = vs.length
          ∧ list.read layout listPrint = .ok ("size=" ++ toString (vs.length : ℤ) ++ "  ["
            ++ " -> ".intercalate (vs.map toString) ++ "]\n")
          ∧ (∀ index, list.read layout (listGet · index) = match vs[index.toNat]? with
            | some v => .ok v
            | none => .error (.exit "index out of range"))
          ∧ listFree list = .ok gone ∧ (∀ p, gone.rest.cells p = none)
          ∧ ∀ p, gone.headers.cells p = none
    | .error stop => runPtr MH M cs = .error stop := by
  have hmatch := run_matches M cs
  have hcreate := Handle.behind_create (e := layout) MH listCreate
  cases habs : abstractRun cs with
  | error stop =>
      rw [habs] at hmatch
      exact hcreate.run_error hmatch
  | ok r =>
      obtain ⟨vs, rets⟩ := r
      rw [habs] at hmatch
      obtain ⟨s, hs, xs, hrep, rfl⟩ := hmatch
      obtain ⟨list, hlist, hbehind⟩ := hcreate.run_ok hs
      have hbalanced : (s.mem.blocks : ℤ) - 0 = s.list.size - 0 := balanced_run cs hs
      have hblocks : s.mem.blocks = xs.length := by
        have hsize := hrep.size
        omega
      obtain ⟨m, hm, hempty⟩ := hrep.free hblocks
      obtain ⟨gone, hfree, hrest, hheaders⟩ := hbehind.free hm
      have hprint := hrep.print
      refine ⟨list, gone, hlist, hbehind.blocks, ?_, ?_, fun index => ?_, hfree, ?_, hheaders⟩
      · rw [hbehind.rest, payloads, List.length_map]
        exact hblocks
      · rw [hbehind.read, payloads, List.length_map]
        exact hprint
      · rw [hbehind.read, hrep.get index, payloads, List.getElem?_map]
        cases xs[index.toNat]? with
        | none => rfl
        | some x => rfl
      · rw [hrest]
        exact hempty

end CExercises.LinkedList
