import CExercises.Threads.Def
import Mathlib.Algebra.BigOperators.Ring.Finset
import Mathlib.Algebra.Order.BigOperators.Group.Finset

/-!
# How many increments the race can lose

Without the lock a thread may store a value that has been overtaken, and with it throw away what the
others have counted in the meantime.  It cannot throw away everything: the last store of all is made
in the last iteration of its thread, and the load before it came after the first store of that
thread. So what is left is at least 2, however many threads and iterations there were; and 2 it can
be.

A state is given by how many operations each thread has left.  If that number is even, the next
operation is a load, otherwise it is a store.
-/

namespace CExercises.Threads

variable {T : Type} [DecidableEq T]

/-- The last `n` operations of `unsafe_inc`. -/
def opsLeft (t : T) : ℕ → List (LockOp Unit (CountOp T))
  | 0 => []
  | n + 1 => .act (if n % 2 = 0 then .store t else .load t) :: opsLeft t n

omit [DecidableEq T] in
lemma unsafeInc_eq (k : ℕ) (t : T) : unsafeInc k t = opsLeft t (2 * k) := by
  induction k with
  | zero => rfl
  | succ k ih =>
      rw [show 2 * (k + 1) = 2 * k + 1 + 1 by omega, opsLeft, opsLeft, if_neg (by omega),
        if_pos (by omega), ← ih]
      rfl

/-- Thread `t` has `n t` operations left. -/
def raceState (n : T → ℕ) (count : ℤ) (reg : T → ℤ) : LockState T Unit (CountOp T) (Counter T) :=
  ⟨fun _ => none, ⟨count, reg⟩, fun t => opsLeft t (n t)⟩

/-- The threads of `section_race`. -/
def raceSystem (iters : T → ℕ) : System (LockState T Unit (CountOp T) (Counter T)) T :=
  counterSystem 0 fun t => unsafeInc (iters t) t

variable {n : T → ℕ} {count : ℤ} {reg : T → ℤ} {t : T} {m : ℕ} {iters : T → ℕ}
  {s s' : LockState T Unit (CountOp T) (Counter T)}

lemma opsLeft_update (n : T → ℕ) (t : T) (m : ℕ) :
    Function.update (fun u => opsLeft u (n u)) t (opsLeft t m)
      = fun u => opsLeft u (Function.update n t m u) := by
  funext u
  by_cases hu : u = t
  · subst hu
    simp
  · simp [Function.update_of_ne hu]

/-- What a thread can do. -/
lemma race_step_cases (h : LockStep countExec t (raceState n count reg) s') :
    ∃ m, n t = m + 1
      ∧ ((m % 2 = 1 ∧ s' = raceState (Function.update n t m) count (Function.update reg t count))
        ∨ (m % 2 = 0 ∧ s' = raceState (Function.update n t m) (reg t + 1) reg)) := by
  cases hn : n t with
  | zero =>
      cases h with
      | lock htodo _ | unlock htodo _ | act htodo =>
          simp only [raceState, hn, opsLeft] at htodo
          cases htodo
  | succ m =>
      refine ⟨m, rfl, ?_⟩
      cases h with
      | lock htodo _ | unlock htodo _ =>
          simp only [raceState, hn, opsLeft] at htodo
          cases htodo
      | act htodo =>
          simp only [raceState, hn, opsLeft] at htodo
          cases htodo
          rcases Nat.mod_two_eq_zero_or_one m with hm | hm
          · exact Or.inr ⟨hm, by simp [raceState, hm, countExec, opsLeft_update]⟩
          · exact Or.inl ⟨hm, by simp [raceState, hm, countExec, opsLeft_update]⟩

/-! ## What the counter can hold -/

section

variable [Fintype T]

/-- The iterations that have stored. -/
def stored (iters n : T → ℕ) : ℕ := ∑ t, (iters t - (n t + 1) / 2)

lemma stored_update (hn : n t = m + 1) (hle : n t ≤ 2 * iters t) :
    stored iters (Function.update n t m) = stored iters n + (if m % 2 = 0 then 1 else 0) := by
  have hrest : ∀ u ∈ Finset.univ.erase t, iters u - (Function.update n t m u + 1) / 2
      = iters u - (n u + 1) / 2 := by
    intro u hu
    rw [Function.update_of_ne (Finset.ne_of_mem_erase hu)]
  rw [stored, stored, ← Finset.add_sum_erase _ _ (Finset.mem_univ t),
    ← Finset.add_sum_erase _ (fun u => iters u - (n u + 1) / 2) (Finset.mem_univ t),
    Finset.sum_congr rfl hrest, Function.update_self, hn]
  split_ifs with hm <;> omega

/-- What holds of the counter and the registers, whoever moves. -/
structure RaceInv (iters n : T → ℕ) (count : ℤ) (reg : T → ℤ) : Prop where
  le : ∀ t, n t ≤ 2 * iters t
  nonneg : 0 ≤ count
  /-- Once somebody has stored, the counter is positive. -/
  pos : ∀ t, n t + 2 ≤ 2 * iters t → 1 ≤ count
  reg_nonneg : ∀ t, n t % 2 = 1 → 0 ≤ reg t
  /-- A thread that has stored loads a positive value. -/
  reg_pos : ∀ t, n t % 2 = 1 → n t + 3 ≤ 2 * iters t → 1 ≤ reg t
  count_le : count ≤ stored iters n
  reg_le : ∀ t, n t % 2 = 1 → reg t ≤ stored iters n
  /-- The last store of all. -/
  last : (∀ t, n t = 0) → 2 ≤ count

omit [DecidableEq T] in
lemma raceInv_init (a : T) (hiters : ∀ t, 2 ≤ iters t) :
    RaceInv iters (fun t => 2 * iters t) 0 fun _ => 0 := by
  refine ⟨fun t => le_refl _, le_refl _, fun t ht => ?_, fun t _ => le_refl _, fun t _ ht => ?_, ?_,
    fun t ht => ?_, fun hall => ?_⟩
  · omega
  · omega
  · exact Int.natCast_nonneg _
  · exact Int.natCast_nonneg _
  · have h2 := hiters a
    have h0 := hall a
    omega

/-- **Load.** -/
lemma RaceInv.load (h : RaceInv iters n count reg) (hn : n t = m + 1) (hm : m % 2 = 1) :
    RaceInv iters (Function.update n t m) count (Function.update reg t count) := by
  have hle := h.le t
  have hstored := stored_update hn hle
  rw [if_neg (by omega), add_zero] at hstored
  have hother : ∀ u, u ≠ t → Function.update n t m u = n u ∧ Function.update reg t count u = reg u :=
    fun u hu => ⟨Function.update_of_ne hu _ _, Function.update_of_ne hu _ _⟩
  have hself : Function.update n t m t = m ∧ Function.update reg t count t = count :=
    ⟨Function.update_self _ _ _, Function.update_self _ _ _⟩
  refine ⟨fun u => ?_, h.nonneg, fun u hu => ?_, fun u hu => ?_, fun u hu hu' => ?_, ?_,
    fun u hu => ?_, fun hall => ?_⟩
  · by_cases hut : u = t
    · subst hut
      omega
    · rw [(hother u hut).1]
      exact h.le u
  · by_cases hut : u = t
    · subst hut
      exact h.pos u (by omega)
    · rw [(hother u hut).1] at hu
      exact h.pos u hu
  · by_cases hut : u = t
    · subst hut
      rw [hself.2]
      exact h.nonneg
    · rw [(hother u hut).1] at hu
      rw [(hother u hut).2]
      exact h.reg_nonneg u hu
  · by_cases hut : u = t
    · subst hut
      rw [hself.2]
      exact h.pos u (by omega)
    · rw [(hother u hut).1] at hu hu'
      rw [(hother u hut).2]
      exact h.reg_pos u hu hu'
  · rw [hstored]
    exact h.count_le
  · rw [hstored]
    by_cases hut : u = t
    · subst hut
      rw [hself.2]
      exact h.count_le
    · rw [(hother u hut).1] at hu
      rw [(hother u hut).2]
      exact h.reg_le u hu
  · have h0 := hall t
    omega

/-- **Store.** -/
lemma RaceInv.store (h : RaceInv iters n count reg) (hiters : ∀ t, 2 ≤ iters t) (hn : n t = m + 1)
    (hm : m % 2 = 0) : RaceInv iters (Function.update n t m) (reg t + 1) reg := by
  have hle := h.le t
  have hodd : n t % 2 = 1 := by omega
  have hnonneg := h.reg_nonneg t hodd
  have hregle := h.reg_le t hodd
  have hstored := stored_update hn hle
  rw [if_pos hm] at hstored
  have hother : ∀ u, u ≠ t → Function.update n t m u = n u := fun u hu =>
    Function.update_of_ne hu _ _
  have hself : Function.update n t m t = m := Function.update_self _ _ _
  refine ⟨fun u => ?_, by omega, fun _ _ => by omega, fun u hu => ?_, fun u hu hu' => ?_, ?_,
    fun u hu => ?_, fun hall => ?_⟩
  · by_cases hut : u = t
    · subst hut
      omega
    · rw [hother u hut]
      exact h.le u
  · by_cases hut : u = t
    · subst hut
      omega
    · rw [hother u hut] at hu
      exact h.reg_nonneg u hu
  · by_cases hut : u = t
    · subst hut
      omega
    · rw [hother u hut] at hu hu'
      exact h.reg_pos u hu hu'
  · rw [hstored]
    push_cast
    omega
  · by_cases hut : u = t
    · subst hut
      omega
    · rw [hother u hut] at hu
      have hreg := h.reg_le u hu
      rw [hstored]
      push_cast
      omega
  · have h2 := hiters t
    have h0 := hall t
    have hpos := h.reg_pos t hodd (by omega)
    omega

/-- **Run.** -/
lemma raceInv_of_reachable (a : T) (hiters : ∀ t, 2 ≤ iters t) (h : Reachable (raceSystem iters) s) :
    ∃ n count reg, s = raceState n count reg ∧ RaceInv iters n count reg := by
  refine h.invariant
    (I := fun s => ∃ n count reg, s = raceState n count reg ∧ RaceInv iters n count reg) ?_ ?_
  · rintro s rfl
    refine ⟨fun t => 2 * iters t, 0, fun _ => 0, ?_, raceInv_init a hiters⟩
    simp [raceState, unsafeInc_eq]
  · rintro t s s' ⟨n, count, reg, rfl, hinv⟩ hstep
    obtain ⟨m, hn, ⟨hm, rfl⟩ | ⟨hm, rfl⟩⟩ := race_step_cases hstep
    · exact ⟨_, _, _, rfl, hinv.load hn hm⟩
    · exact ⟨_, _, _, rfl, hinv.store hiters hn hm⟩

end

/-! ## Schedules -/

lemma reach_load (h : Reachable (raceSystem iters) (raceState n count reg)) (hn : n t = m + 1)
    (hm : m % 2 = 1) : Reachable (raceSystem iters)
      (raceState (Function.update n t m) count (Function.update reg t count)) := by
  have hstep : LockStep countExec t (raceState n count reg)
      (raceState (Function.update n t m) count (Function.update reg t count)) := by
    have hact := @LockStep.act T Unit (CountOp T) (Counter T) _ _ countExec t
      (raceState n count reg) (.load t) (opsLeft t m) (by simp [raceState, hn, opsLeft, hm])
    simpa [raceState, countExec, opsLeft_update] using hact
  exact h.step t hstep

lemma reach_store (h : Reachable (raceSystem iters) (raceState n count reg)) (hn : n t = m + 1)
    (hm : m % 2 = 0) : Reachable (raceSystem iters)
      (raceState (Function.update n t m) (reg t + 1) reg) := by
  have hstep : LockStep countExec t (raceState n count reg)
      (raceState (Function.update n t m) (reg t + 1) reg) := by
    have hact := @LockStep.act T Unit (CountOp T) (Counter T) _ _ countExec t
      (raceState n count reg) (.store t) (opsLeft t m) (by simp [raceState, hn, opsLeft, hm])
    simpa [raceState, countExec, opsLeft_update] using hact
  exact h.step t hstep

/-- A thread that is left alone for `d` iterations counts them. -/
lemma reach_alone (t : T) (j d : ℕ) (h : Reachable (raceSystem iters) (raceState n count reg))
    (hn : n t = 2 * (j + d)) :
    ∃ reg', Reachable (raceSystem iters)
        (raceState (Function.update n t (2 * j)) (count + d) reg')
      ∧ ∀ u, u ≠ t → reg' u = reg u := by
  induction d generalizing n count reg with
  | zero =>
      refine ⟨reg, ?_, fun _ _ => rfl⟩
      rw [show 2 * j = n t by omega, Function.update_eq_self]
      simpa using h
  | succ d ih =>
      have h₁ := reach_load (m := 2 * (j + d) + 1) h (by omega) (by omega)
      have h₂ := reach_store (t := t) (m := 2 * (j + d)) h₁ (by simp) (by omega)
      rw [Function.update_self, Function.update_idem] at h₂
      rcases ih h₂ (by simp) with ⟨reg', h₃, hreg⟩
      rw [Function.update_idem] at h₃
      refine ⟨reg', ?_, fun u hu => ?_⟩
      · rw [show count + ((d + 1 : ℕ) : ℤ) = count + 1 + d by push_cast; omega]
        exact h₃
      · rw [hreg u hu, Function.update_of_ne hu]

/-- Threads that run one after the other to their ends. -/
lemma reach_all (F : Finset T) (k : T → ℕ)
    (h : Reachable (raceSystem iters) (raceState n count reg)) (hn : ∀ t ∈ F, n t = 2 * k t) :
    ∃ reg', Reachable (raceSystem iters)
        (raceState (fun t => if t ∈ F then 0 else n t) (count + ∑ t ∈ F, (k t : ℤ)) reg')
      ∧ ∀ u, u ∉ F → reg' u = reg u := by
  induction F using Finset.induction_on with
  | empty => exact ⟨reg, by simpa using h, fun _ _ => rfl⟩
  | insert t F ht ih =>
      rcases ih fun u hu => hn u (Finset.mem_insert_of_mem hu) with ⟨reg₁, h₁, hreg₁⟩
      have hself := hn t (Finset.mem_insert_self t F)
      rcases reach_alone t 0 (k t) h₁ (by simp [ht, hself]) with ⟨reg₂, h₂, hreg₂⟩
      refine ⟨reg₂, ?_, fun u hu => ?_⟩
      · have hstate : Function.update (fun u => if u ∈ F then 0 else n u) t (2 * 0)
            = fun u => if u ∈ insert t F then 0 else n u := by
          funext u
          by_cases hut : u = t
          · subst hut
            simp
          · simp [hut]
        rw [hstate] at h₂
        rw [Finset.sum_insert ht, add_comm (k t : ℤ), ← add_assoc]
        exact h₂
      · simp only [Finset.mem_insert, not_or] at hu
        rw [hreg₂ u hu.1, hreg₁ u hu.2]

lemma reach_start (iters : T → ℕ) :
    Reachable (raceSystem iters) (raceState (fun t => 2 * iters t) 0 fun _ => 0) := by
  refine .init ?_
  show raceState _ _ _ = _
  simp [raceState, unsafeInc_eq]

/-- **The schedule that loses most.**  `a` loads 0 and is overtaken: the other threads run to their
ends, and `b` up to its last iteration.  The store of `a` throws all of this away, `b` loads the 1
it leaves, and the store of `b` throws the rest of `a` away. -/
lemma reach_two [Fintype T] {a b : T} (hab : a ≠ b) (hiters : ∀ t, 2 ≤ iters t) :
    ∃ n reg, Reachable (raceSystem iters) (raceState n 2 reg) ∧ ∀ t, n t = 0 := by
  have ha := hiters a
  have hb := hiters b
  have h₁ := reach_load (t := a) (m := 2 * iters a - 1) (reach_start iters) (by omega) (by omega)
  rcases reach_all ((Finset.univ.erase a).erase b) iters h₁ (fun t ht => by
    rw [Function.update_of_ne (Finset.ne_of_mem_erase (Finset.mem_of_mem_erase ht))]) with
    ⟨reg₂, h₂, hreg₂⟩
  rcases reach_alone b 1 (iters b - 1) h₂ (by simp [Ne.symm hab]; omega) with ⟨reg₃, h₃, hreg₃⟩
  have hreg₃a : reg₃ a = 0 := by
    rw [hreg₃ a hab, hreg₂ a (by simp)]
    simp
  have h₄ := reach_store (t := a) (m := 2 * iters a - 2) h₃ (by simp [hab]; omega) (by omega)
  rw [hreg₃a, zero_add] at h₄
  have h₅ := reach_load (t := b) (m := 1) h₄ (by simp [Ne.symm hab]) rfl
  rcases reach_alone a 0 (iters a - 1) h₅ (by simp [hab]; omega) with ⟨reg₆, h₆, hreg₆⟩
  have hreg₆b : reg₆ b = 1 := by
    rw [hreg₆ b (Ne.symm hab), Function.update_self]
  have h₇ := reach_store (t := b) (m := 0) h₆ (by simp [Ne.symm hab]) rfl
  rw [hreg₆b, one_add_one_eq_two] at h₇
  refine ⟨_, _, h₇, fun t => ?_⟩
  by_cases htb : t = b
  · simp [htb]
  · by_cases hta : t = a
    · simp [hta, hab]
    · simp [hta, htb]

/-- **What the race leaves.**  With two iterations a thread at least, the final count is never below
2 and never above the number of increments; both can happen. -/
theorem unsafe_inc_bounds [Fintype T] (iters : T → ℕ) (a b : T) (hab : a ≠ b)
    (hiters : ∀ t, 2 ≤ iters t) :
    (∀ s, Reachable (raceSystem iters) s → (∀ t, s.todo t = []) →
      2 ≤ s.data.count ∧ s.data.count ≤ ∑ t, (iters t : ℤ))
    ∧ (∃ s, Reachable (raceSystem iters) s ∧ (∀ t, s.todo t = []) ∧ s.data.count = 2)
    ∧ ∃ s, Reachable (raceSystem iters) s ∧ (∀ t, s.todo t = [])
        ∧ s.data.count = ∑ t, (iters t : ℤ) := by
  refine ⟨fun s h hdone => ?_, ?_, ?_⟩
  · rcases raceInv_of_reachable a hiters h with ⟨n, count, reg, rfl, hinv⟩
    have hn : ∀ t, n t = 0 := by
      intro t
      have ht : opsLeft t (n t) = [] := hdone t
      cases hnt : n t with
      | zero => rfl
      | succ m => simp [hnt, opsLeft] at ht
    refine ⟨hinv.last hn, ?_⟩
    show count ≤ _
    simpa [stored, hn] using hinv.count_le
  · rcases reach_two hab hiters with ⟨n, reg, h, hn⟩
    exact ⟨_, h, fun t => by simp [raceState, hn, opsLeft], rfl⟩
  · rcases reach_all Finset.univ iters (reach_start iters) (fun t _ => rfl) with ⟨reg, h, _⟩
    exact ⟨_, h, fun t => by simp [raceState, opsLeft], by simp [raceState]⟩

/-- The four threads of the source. -/
theorem unsafe_inc_bounds_demo :
    (0 : Fin 4) ≠ 1 ∧ (∀ _t : Fin 4, 2 ≤ 500000)
    ∧ (∀ s, Reachable (raceSystem fun _ : Fin 4 => 500000) s → (∀ t, s.todo t = []) →
        2 ≤ s.data.count ∧ s.data.count ≤ ∑ _t : Fin 4, ((500000 : ℕ) : ℤ))
    ∧ (∃ s, Reachable (raceSystem fun _ : Fin 4 => 500000) s ∧ (∀ t, s.todo t = [])
        ∧ s.data.count = 2)
    ∧ ∃ s, Reachable (raceSystem fun _ : Fin 4 => 500000) s ∧ (∀ t, s.todo t = [])
        ∧ s.data.count = ∑ _t : Fin 4, ((500000 : ℕ) : ℤ) :=
  ⟨by decide, fun _ => by decide, unsafe_inc_bounds (fun _ => 500000) 0 1 (by decide)
    fun _ => by decide⟩

end CExercises.Threads
