import CExercises.TreiberStack.Def

/-!
# The lock-free stack is an atomic stack

A pop reads `old_head->next` and commits later, when arbitrarily much may have happened.  It is
saved by one fact: a node that has been published keeps its `next` field for ever.  Only the push of
a node writes that field, before the node is published, and a node is pushed once.  So if `head`
is the same node at the time of the compare-exchange, what was read from it is still its `next`.

`ThreadOk` is what a thread may rely on at each point of its code, and `Inv` adds the shape of the
stack: the chain from `head` is the stack that the recorded history has made.
-/

namespace CExercises.TreiberStack

/-- The node a thread is about to publish. -/
def Owns : Pc → ℕ → Prop
  | .pushLoad m, n => m = n
  | .pushWrite m _, n => m = n
  | .pushCas m _, n => m = n
  | _, _ => False

/-- What a thread relies on.  `published` are the nodes whose push has succeeded. -/
def ThreadOk (given published : List ℕ) (nodes : ℕ → Node) : Pc → Prop
  | .idle => True
  | .pushLoad n => n ∈ given ∧ n ∉ published
  | .pushWrite n _ => n ∈ given ∧ n ∉ published
  | .pushCas n p => (n ∈ given ∧ n ∉ published) ∧ (nodes n).next = p
  | .popLoad => True
  | .popNext n => n ∈ published
  | .popCas n p => n ∈ published ∧ (nodes n).next = p

lemma ThreadOk.owned {given published : List ℕ} {nodes : ℕ → Node} {pc : Pc} {n : ℕ}
    (h : ThreadOk given published nodes pc) (hown : Owns pc n) : n ∈ given ∧ n ∉ published := by
  cases pc with
  | pushLoad m =>
      cases hown
      exact h
  | pushWrite m p =>
      cases hown
      exact h
  | pushCas m p =>
      cases hown
      exact h.1
  | idle => cases hown
  | popLoad => cases hown
  | popNext m => cases hown
  | popCas m p => cases hown

/-- **What other threads may do.**  More nodes may be handed out and published, as long as the
thread's own node is not among the published ones; and `next` fields may change, as long as neither
a published node nor one the thread is about to publish is touched. -/
lemma ThreadOk.mono {given given' published published' : List ℕ} {nodes nodes' : ℕ → Node} {pc : Pc}
    (h : ThreadOk given published nodes pc) (hg : given ⊆ given') (hp : published ⊆ published')
    (hown : ∀ n, Owns pc n → n ∉ published')
    (hnext : ∀ n, n ∈ published ∨ (∃ p, pc = .pushCas n p) → (nodes' n).next = (nodes n).next) :
    ThreadOk given' published' nodes' pc := by
  cases pc with
  | idle => trivial
  | pushLoad n => exact ⟨hg h.1, hown n rfl⟩
  | pushWrite n p => exact ⟨hg h.1, hown n rfl⟩
  | pushCas n p => exact ⟨⟨hg h.1.1, hown n rfl⟩, by rw [hnext n (Or.inr ⟨p, rfl⟩), h.2]⟩
  | popLoad => trivial
  | popNext n => exact hp h
  | popCas n p => exact ⟨hp h.1, by rw [hnext n (Or.inl h.1), h.2]⟩

section

variable {T : Type} {s s' : State T} {xs : List (ℕ × ℤ)} {t : T}

structure Inv (s : State T) (xs : List (ℕ × ℤ)) : Prop where
  legal : lifoRun s.history = some (addrs xs)
  chain : Chain (view s.nodes) s.head xs none
  nodup : (pushes s.history).Nodup
  pushed_given : pushes s.history ⊆ s.given
  threads : ∀ t, ThreadOk s.given (pushes s.history) s.nodes (s.pc t)
  owner : ∀ t u n, Owns (s.pc t) n → Owns (s.pc u) n → t = u

/-- The nodes on the stack have been published. -/
lemma Inv.mem_pushes (h : Inv s xs) {n : ℕ} (hn : n ∈ addrs xs) : n ∈ pushes s.history :=
  (lifoRun_perm _ _ h.legal).mem_iff.mp (List.mem_append_left _ hn)

/-- Nobody else owns the node that `t` owns. -/
lemma Inv.not_owns (h : Inv s xs) {u : T} {n : ℕ} (ht : Owns (s.pc t) n) (hut : u ≠ t) :
    ¬ Owns (s.pc u) n :=
  fun hu => hut (h.owner u t n hu ht)

lemma inv_init (nodes : ℕ → Node) : Inv (⟨none, nodes, fun _ => .idle, [], []⟩ : State T) [] :=
  ⟨rfl, rfl, List.nodup_nil, fun _ hn => hn, fun _ => trivial, fun _ _ _ hown => hown.elim⟩

/-! ## The five things that change shared memory or the record -/

/-- A node is handed to `lf_push`. -/
lemma Inv.give (h : Inv s xs) (n : ℕ) : Inv { s with given := n :: s.given } xs where
  legal := h.legal
  chain := h.chain
  nodup := h.nodup
  pushed_given := fun _ hm => List.mem_cons_of_mem n (h.pushed_given hm)
  threads := fun u => (h.threads u).mono (fun _ hm => List.mem_cons_of_mem n hm) (fun _ hm => hm)
    (fun _ hown => ((h.threads u).owned hown).2) (fun _ _ => rfl)
  owner := h.owner

/-- The `next` field of a node nobody else has seen is written. -/
lemma Inv.write [DecidableEq T] (h : Inv s xs) {n : ℕ} (hn : n ∉ pushes s.history)
    (hfree : ∀ u p, s.pc u ≠ .pushCas n p) (p : Ptr) : Inv (s.writeNext n p) xs where
  legal := h.legal
  chain := by
    refine h.chain.congr fun a ha => ?_
    have hne : a ≠ n := fun heq => hn (heq ▸ h.mem_pushes ha)
    simp only [view, State.writeNext, Function.update_of_ne hne]
  nodup := h.nodup
  pushed_given := h.pushed_given
  threads := by
    intro u
    refine (h.threads u).mono (fun _ hm => hm) (fun _ hm => hm)
      (fun m hown => ((h.threads u).owned hown).2) fun m hm => ?_
    have hne : m ≠ n := by
      rintro rfl
      rcases hm with hm | ⟨q, hq⟩
      · exact hn hm
      · exact hfree u q hq
    simp only [State.writeNext, Function.update_of_ne hne]
  owner := h.owner

/-- A push takes effect. -/
lemma Inv.publish (h : Inv s xs) {n : ℕ} (hgiven : n ∈ s.given) (hn : n ∉ pushes s.history)
    (hnext : (s.nodes n).next = s.head) (hfree : ∀ u, ¬ Owns (s.pc u) n) :
    Inv ({ s with head := some n }.record (.pushed n)) ((n, (s.nodes n).value) :: xs) := by
  have hpushes : pushes (s.history ++ [.pushed n]) = pushes s.history ++ [n] := pushes_append _ _
  constructor
  · show lifoRun (s.history ++ [.pushed n]) = _
    rw [lifoRun_concat, h.legal]
    rfl
  · refine ⟨rfl, s.head, ?_, h.chain⟩
    show some (nodeView (s.nodes n)) = _
    rw [nodeView, hnext]
  · show (pushes (s.history ++ [.pushed n])).Nodup
    rw [hpushes, List.nodup_append]
    refine ⟨h.nodup, List.nodup_singleton n, fun a ha b hb => ?_⟩
    rw [List.mem_singleton.mp hb]
    rintro rfl
    exact hn ha
  · show pushes (s.history ++ [.pushed n]) ⊆ s.given
    rw [hpushes]
    intro m hm
    rcases List.mem_append.mp hm with hm | hm
    · exact h.pushed_given hm
    · rw [List.mem_singleton.mp hm]
      exact hgiven
  · intro u
    show ThreadOk s.given (pushes (s.history ++ [.pushed n])) s.nodes (s.pc u)
    rw [hpushes]
    refine (h.threads u).mono (fun _ hm => hm) (fun _ hm => List.mem_append_left _ hm)
      (fun m hown hm => ?_) (fun _ _ => rfl)
    rcases List.mem_append.mp hm with hm | hm
    · exact ((h.threads u).owned hown).2 hm
    · rw [List.mem_singleton.mp hm] at hown
      exact hfree u hown
  · exact h.owner

/-- A pop finds the stack empty. -/
lemma Inv.findEmpty (h : Inv s xs) (hhead : s.head = none) : Inv (s.record .foundEmpty) xs := by
  have hnil : xs = [] := h.chain.eq_nil_iff.mpr hhead
  have hpushes : pushes (s.history ++ [.foundEmpty]) = pushes s.history := by
    rw [pushes_append]
    exact List.append_nil _
  constructor
  · show lifoRun (s.history ++ [.foundEmpty]) = _
    rw [lifoRun_concat, h.legal, hnil]
    rfl
  · exact h.chain
  · exact hpushes ▸ h.nodup
  · exact hpushes ▸ h.pushed_given
  · exact fun u => hpushes ▸ h.threads u
  · exact h.owner

/-- A pop takes effect. -/
lemma Inv.unlink (h : Inv s xs) {n : ℕ} {p : Ptr} (hhead : s.head = some n)
    (hnext : (s.nodes n).next = p) :
    ∃ xs', Inv ({ s with head := p }.record (.popped n)) xs' := by
  have hpushes : pushes (s.history ++ [.popped n]) = pushes s.history := by
    rw [pushes_append]
    exact List.append_nil _
  cases xs with
  | nil =>
      have := h.chain
      rw [hhead] at this
      cases this
  | cons x xs =>
      rcases h.chain with ⟨hx, p', hview, hrest⟩
      rw [hhead] at hx
      have hxn : x.1 = n := (Option.some.inj hx).symm
      have hp' : p' = p := by
        have := congrArg Prod.snd (Option.some.inj hview)
        rw [← hnext, ← hxn]
        exact this.symm
      refine ⟨xs, ?_, ?_, ?_, ?_, ?_, h.owner⟩
      · show lifoRun (s.history ++ [.popped n]) = _
        rw [lifoRun_concat, h.legal]
        show lifoStep (x.1 :: addrs xs) (.popped n) = _
        rw [hxn]
        exact if_pos rfl
      · show Chain (view s.nodes) p xs none
        rw [← hp']
        exact hrest
      · exact hpushes ▸ h.nodup
      · exact hpushes ▸ h.pushed_given
      · exact fun u => hpushes ▸ h.threads u

section

variable [DecidableEq T]

/-- A thread moves on without touching anything that is shared. -/
lemma Inv.goto (h : Inv s xs) (pc : Pc) (hok : ThreadOk s.given (pushes s.history) s.nodes pc)
    (hfree : ∀ n u, u ≠ t → Owns pc n → ¬ Owns (s.pc u) n) : Inv (s.goto t pc) xs := by
  have hself : (s.goto t pc).pc t = pc := Function.update_self _ _ _
  have hother : ∀ u, u ≠ t → (s.goto t pc).pc u = s.pc u := fun u hut =>
    Function.update_of_ne hut _ _
  refine ⟨h.legal, h.chain, h.nodup, h.pushed_given, fun u => ?_, fun u v n hu hv => ?_⟩
  · by_cases hut : u = t
    · rw [hut, hself]
      exact hok
    · rw [hother u hut]
      exact h.threads u
  · by_cases hut : u = t
    · by_cases hvt : v = t
      · rw [hut, hvt]
      · rw [hut, hself] at hu
        rw [hother v hvt] at hv
        exact absurd hv (hfree n v hvt hu)
    · rw [hother u hut] at hu
      by_cases hvt : v = t
      · rw [hvt, hself] at hv
        exact absurd hu (hfree n u hut hv)
      · rw [hother v hvt] at hv
        exact h.owner u v n hu hv

/-- The same for a thread that keeps the node it has, or has none. -/
lemma Inv.advance (h : Inv s xs) (pc : Pc) (hok : ThreadOk s.given (pushes s.history) s.nodes pc)
    (hown : ∀ n, Owns pc n → Owns (s.pc t) n) : Inv (s.goto t pc) xs :=
  h.goto pc hok fun n _ hut hpc => h.not_owns (hown n hpc) hut

/-- **One step** of any thread keeps the invariant. -/
theorem inv_step (h : Inv s xs) (hstep : Step t s s') : ∃ xs', Inv s' xs' := by
  cases hstep with
  | @invokePush node hpc hnew =>
      have hgive := h.give node
      refine ⟨xs, hgive.goto (.pushLoad node) ⟨List.mem_cons_self, fun hmem => ?_⟩ ?_⟩
      · exact hnew (h.pushed_given hmem)
      · rintro n u _ rfl hu
        exact hnew ((h.threads u).owned hu).1
  | @pushLoad node hpc =>
      have hok := h.threads t
      rw [hpc] at hok
      exact ⟨xs, h.advance (.pushWrite node s.head) hok fun n hn => by rw [hpc]; exact hn⟩
  | @pushWrite node oldHead hpc =>
      have hok := h.threads t
      rw [hpc] at hok
      have hown : Owns (s.pc t) node := by rw [hpc]; rfl
      have hfree : ∀ u p, s.pc u ≠ .pushCas node p := by
        intro u p hu
        by_cases hut : u = t
        · rw [hut, hpc] at hu
          cases hu
        · exact h.not_owns hown hut (by rw [hu]; rfl)
      have hwrite := h.write hok.2 hfree oldHead
      refine ⟨xs, hwrite.advance (.pushCas node oldHead) ⟨hok, ?_⟩ fun n hn => ?_⟩
      · simp [State.writeNext]
      · show Owns (s.pc t) n
        rw [hpc]
        exact hn
  | @pushDone node oldHead hpc hcas =>
      have hok := h.threads t
      rw [hpc] at hok
      have hown : Owns (s.pc t) node := by rw [hpc]; rfl
      have hidle := h.advance (t := t) .idle trivial fun n hn => hn.elim
      refine ⟨_, hidle.publish hok.1.1 hok.1.2 (hok.2.trans hcas.symm) fun u hu => ?_⟩
      by_cases hut : u = t
      · rw [hut] at hu
        simp only [State.goto, Function.update_self] at hu
        exact hu
      · simp only [State.goto, Function.update_of_ne hut] at hu
        exact h.not_owns hown hut hu
  | @pushRetry node oldHead hpc =>
      have hok := h.threads t
      rw [hpc] at hok
      exact ⟨xs, h.advance (.pushLoad node) hok.1 fun n hn => by rw [hpc]; exact hn⟩
  | invokePop hpc => exact ⟨xs, h.advance .popLoad trivial fun n hn => hn.elim⟩
  | popEmpty hpc hload =>
      have hidle := h.advance (t := t) .idle trivial fun n hn => hn.elim
      exact ⟨xs, hidle.findEmpty hload⟩
  | @popLoad oldHead hpc hload =>
      refine ⟨xs, h.advance (.popNext oldHead) (h.mem_pushes ?_) fun n hn => hn.elim⟩
      cases xs with
      | nil =>
          have := h.chain
          rw [hload] at this
          cases this
      | cons x xs =>
          have hx := h.chain.1
          rw [hload] at hx
          exact List.mem_cons.mpr (Or.inl (Option.some.inj hx))
  | @popNext oldHead hpc =>
      have hok := h.threads t
      rw [hpc] at hok
      exact ⟨xs, h.advance (.popCas oldHead (s.nodes oldHead).next) ⟨hok, rfl⟩ fun n hn => hn.elim⟩
  | @popDone oldHead newHead hpc hcas =>
      have hok := h.threads t
      rw [hpc] at hok
      have hidle := h.advance (t := t) .idle trivial fun n hn => hn.elim
      -- the field read earlier is still the field of the node that is still on top
      exact hidle.unlink hcas hok.2
  | popRetry hpc => exact ⟨xs, h.advance .popLoad trivial fun n hn => hn.elim⟩

lemma reachable_thread (h : Reachable (system T) s) (hstep : Step t s s') :
    Reachable (system T) s' :=
  h.step t hstep

theorem inv_of_reachable (h : Reachable (system T) s) : ∃ xs, Inv s xs := by
  refine h.invariant (I := fun s => ∃ xs, Inv s xs) ?_ ?_
  · rintro s ⟨nodes, rfl⟩
    exact ⟨[], inv_init nodes⟩
  · rintro t s s' ⟨xs, hinv⟩ hstep
    exact inv_step hinv hstep

end

end

/-- **The lock-free stack behaves as an atomic one.**  Its history can be replayed on a list, and
the list it leaves is the chain from `head`: every pop returned the top of the stack at that moment
or found it empty, and the nodes on the stack and the nodes popped are the nodes pushed, each
once. -/
theorem lf_stack_atomic (T : Type) [DecidableEq T] (s : State T) (h : Reachable (system T) s) :
    ∃ xs, lifoRun s.history = some (addrs xs)
      ∧ Chain (view s.nodes) s.head xs none
      ∧ (addrs xs ++ pops s.history).Perm (pushes s.history)
      ∧ (pushes s.history).Nodup
      ∧ (∀ before n after, s.history = before ++ .popped n :: after →
          ∃ rest, lifoRun before = some (n :: rest))
      ∧ ∀ before after, s.history = before ++ .foundEmpty :: after →
          lifoRun before = some [] := by
  rcases inv_of_reachable h with ⟨xs, hinv⟩
  refine ⟨xs, hinv.legal, hinv.chain, lifoRun_perm _ _ hinv.legal, hinv.nodup, ?_, ?_⟩
  · intro before n after heq
    exact lifoRun_popped (heq ▸ hinv.legal)
  · intro before after heq
    exact lifoRun_foundEmpty (heq ▸ hinv.legal)

/-- Two threads push, and both have loaded the empty head.  The exchange of one fails, and it begins
again; then the other pops the node that this has put on top of its own. -/
theorem lf_stack_atomic_contended :
    ∃ s : State Bool, Reachable (system Bool) s ∧ s.history = [.pushed 3, .pushed 5, .popped 5]
      ∧ s.head = some 3
      ∧ ∃ xs, lifoRun s.history = some (addrs xs)
        ∧ Chain (view s.nodes) s.head xs none
        ∧ (addrs xs ++ pops s.history).Perm (pushes s.history)
        ∧ (pushes s.history).Nodup
        ∧ (∀ before n after, s.history = before ++ .popped n :: after →
            ∃ rest, lifoRun before = some (n :: rest))
        ∧ ∀ before after, s.history = before ++ .foundEmpty :: after →
            lifoRun before = some [] := by
  set s₀ : State Bool := ⟨none, fun _ => ⟨0, none⟩, fun _ => .idle, [], []⟩
  have h₀ : Reachable (system Bool) s₀ := Reachable.init ⟨_, rfl⟩
  have h₁ := reachable_thread h₀ (@Step.invokePush _ _ true _ 3 rfl (by simp [s₀]))
  have h₂ := reachable_thread h₁ (@Step.invokePush _ _ false _ 5 rfl (by simp [s₀]))
  have h₃ := reachable_thread h₂ (Step.pushLoad (t := true) rfl)
  have h₄ := reachable_thread h₃ (Step.pushLoad (t := false) rfl)
  have h₅ := reachable_thread h₄ (Step.pushWrite (t := true) rfl)
  have h₆ := reachable_thread h₅ (Step.pushWrite (t := false) rfl)
  have h₇ := reachable_thread h₆ (Step.pushDone (t := true) rfl rfl)
  have h₈ := reachable_thread h₇ (Step.pushRetry (t := false) rfl)
  have h₉ := reachable_thread h₈ (Step.pushLoad (t := false) rfl)
  have h₁₀ := reachable_thread h₉ (Step.pushWrite (t := false) rfl)
  have h₁₁ := reachable_thread h₁₀ (Step.pushDone (t := false) rfl rfl)
  have h₁₂ := reachable_thread h₁₁ (Step.invokePop (t := true) rfl)
  have h₁₃ := reachable_thread h₁₂ (Step.popLoad (t := true) rfl rfl)
  have h₁₄ := reachable_thread h₁₃ (Step.popNext (t := true) rfl)
  have h₁₅ := reachable_thread h₁₄ (Step.popDone (t := true) rfl rfl)
  exact ⟨_, h₁₅, rfl, rfl, lf_stack_atomic Bool _ h₁₅⟩

end CExercises.TreiberStack
