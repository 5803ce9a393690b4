import CExercises.Core.CInt

/-!
# Calls, runs, and what it means to implement a specification

A component is a function that carries out one call: it takes a state and a call and returns the
new state together with what the call returned, or it stops with a `Stop`.  A specification is such
a function as well, on a simpler state.

`Matches R` relates one outcome of the code to one outcome of the specification.  It is exact in
both directions: where the specification returns, the code returns the same value in a related
state; where the specification stops, with a message or because a counter overflows, the code stops
in that very way, and in no other.

`runCalls_matches` is the one induction over a client's calls.  `Along` carries the side
conditions a run is promised to respect.  A specification on lists that an `int` has to count is
written with `counted`.  `Agrees` compares two programs step by step, which is how one model of a
component is shown to do what another one does.
-/

namespace CExercises

variable {ε ε' σ τ ι ο : Type}

/-- Carry out a client's calls in order, collecting what they return. -/
def runCalls (f : σ → ι → Except ε (σ × ο)) : σ → List ι → Except ε (σ × List ο)
  | s, [] => .ok (s, [])
  | s, i :: is =>
      match f s i with
      | .error e => .error e
      | .ok (s', o) =>
          match runCalls f s' is with
          | .error e => .error e
          | .ok (s'', os) => .ok (s'', o :: os)

/-- `P` holds in every state a run passes through, its first and its last included. -/
def Along (P : σ → Prop) (f : σ → ι → Except ε (σ × ο)) : σ → List ι → Prop
  | s, [] => P s
  | s, i :: is => P s ∧ ∀ s' o, f s i = .ok (s', o) → Along P f s' is

/-- The code does what the specification says, outcome by outcome. -/
def Matches (R : σ → τ → Prop) (x : Except Stop (σ × ο)) : Except Stop (τ × ο) → Prop
  | .ok (t, o) => ∃ s, x = .ok (s, o) ∧ R s t
  | .error stop => x = .error stop

section

variable {f : σ → ι → Except ε (σ × ο)} {s s' s'' : σ} {i : ι} {is js : List ι} {o : ο}
  {os os' : List ο}

@[simp] lemma runCalls_nil : runCalls f s [] = .ok (s, []) := rfl

lemma runCalls_cons_ok (h : f s i = .ok (s', o)) (h' : runCalls f s' is = .ok (s'', os)) :
    runCalls f s (i :: is) = .ok (s'', o :: os) := by
  simp [runCalls, h, h']

/-- A run of `i :: is` that returns is one call and then a run of `is`. -/
lemma runCalls_cons_inv (h : runCalls f s (i :: is) = .ok (s'', os)) :
    ∃ s' o os', f s i = .ok (s', o) ∧ runCalls f s' is = .ok (s'', os') ∧ os = o :: os' := by
  simp only [runCalls] at h
  split at h
  · cases h
  · rename_i s' o hstep
    split at h
    · cases h
    · rename_i s₁ os' hrest
      cases h
      exact ⟨s', o, os', hstep, hrest, rfl⟩

end

section

variable {R : σ → τ → Prop} {P : σ → Prop} {f : σ → ι → Except Stop (σ × ο)}
  {g : τ → ι → Except Stop (τ × ο)}

/-- **Refinement lifts from calls to runs.**  If every single call matches, in any pair of related
states that satisfies the side condition `P`, then so does every sequence of calls along which
`P` stays true. -/
theorem runCalls_matches_along
    (step : ∀ s t i, R s t → P s → Matches R (f s i) (g t i)) :
    ∀ (is : List ι) (s : σ) (t : τ), R s t → Along P f s is →
      Matches R (runCalls f s is) (runCalls g t is)
  | [], s, t, hR, _ => ⟨s, rfl, hR⟩
  | i :: is, s, t, hR, hP => by
      obtain ⟨hs, hrest⟩ := hP
      have hstep := step s t i hR hs
      simp only [runCalls]
      cases hg : g t i with
      | error stop =>
          rw [hg] at hstep
          have hf : f s i = .error stop := hstep
          rw [hf]
          rfl
      | ok r =>
          obtain ⟨t', o⟩ := r
          rw [hg] at hstep
          obtain ⟨s', hf, hR'⟩ := hstep
          have ih := runCalls_matches_along step is s' t' hR' (hrest s' o hf)
          rw [hf]
          cases hg' : runCalls g t' is with
          | error stop =>
              rw [hg'] at ih
              have hf' : runCalls f s' is = .error stop := ih
              simp only [hf', hg']
              rfl
          | ok r' =>
              obtain ⟨t'', os⟩ := r'
              rw [hg'] at ih
              obtain ⟨s'', hf', hR''⟩ := ih
              simp only [hf', hg']
              exact ⟨s'', rfl, hR''⟩

lemma along_true : ∀ (is : List ι) (s : σ), Along (fun _ => True) f s is
  | [], _ => trivial
  | _ :: is, _ => ⟨trivial, fun s' _ _ => along_true is s'⟩

theorem runCalls_matches (step : ∀ s t i, R s t → Matches R (f s i) (g t i))
    (is : List ι) (s : σ) (t : τ) (hR : R s t) :
    Matches R (runCalls f s is) (runCalls g t is) :=
  runCalls_matches_along (fun s t i h _ => step s t i h) is s t hR (along_true is s)

end

/-! ## Two programs side by side -/

/-- Two programs end alike: with related results, or stopped in the same way. -/
inductive Agrees {α β : Type} (R : α → β → Prop) : Except Stop α → Except Stop β → Prop
  | ok {a : α} {b : β} (h : R a b) : Agrees R (.ok a) (.ok b)
  | error (stop : Stop) : Agrees R (.error stop) (.error stop)

section

variable {α α' β β' : Type} {R : α → β → Prop} {Q : α' → β' → Prop} {x : Except Stop α}
  {y : Except Stop β}

lemma agrees_refl (x : Except Stop α) : Agrees Eq x x := by
  cases x with
  | error stop => exact .error stop
  | ok a => exact .ok rfl

lemma Agrees.eq {x y : Except Stop α} (h : Agrees Eq x y) : x = y := by
  cases h with
  | ok hab => rw [hab]
  | error stop => rfl

/-- Programs that end alike go on alike. -/
lemma Agrees.bind {f : α → Except Stop α'} {g : β → Except Stop β'} (h : Agrees R x y)
    (hfg : ∀ a b, R a b → Agrees Q (f a) (g b)) : Agrees Q (x >>= f) (y >>= g) := by
  cases h with
  | ok hab => exact hfg _ _ hab
  | error stop => exact .error stop

/-- One of the two has more to do. -/
lemma Agrees.bind_left {Q : α' → β → Prop} {f : α → Except Stop α'} (h : Agrees R x y)
    (hf : ∀ a b, R a b → Agrees Q (f a) (.ok b)) : Agrees Q (x >>= f) y := by
  cases h with
  | ok hab => exact hf _ _ hab
  | error stop => exact .error stop

lemma Agrees.of_ok {b : β} (h : Agrees R x (.ok b)) : ∃ a, x = .ok a ∧ R a b := by
  cases h with
  | ok hab => exact ⟨_, rfl, hab⟩

lemma Agrees.mono {R' : α → β → Prop} (h : Agrees R x y) (hR : ∀ a b, R a b → R' a b) :
    Agrees R' x y := by
  cases h with
  | ok hab => exact .ok (hR _ _ hab)
  | error stop => exact .error stop

lemma Agrees.of_ok_left {a : α} (h : Agrees R (.ok a) y) : ∃ b, y = .ok b ∧ R a b := by
  cases h with
  | ok hab => exact ⟨_, rfl, hab⟩

/-- Two loops over the same list. -/
lemma Agrees.foldlM {γ : Type} {f : α → γ → Except Stop α} {g : β → γ → Except Stop β}
    (hstep : ∀ a b c, R a b → Agrees R (f a c) (g b c)) : ∀ (cs : List γ) {a : α} {b : β},
      R a b → Agrees R (cs.foldlM f a) (cs.foldlM g b)
  | [], _, _, hab => .ok hab
  | c :: cs, a, b, hab => by
      rw [List.foldlM_cons, List.foldlM_cons]
      exact (hstep a b c hab).bind fun a' b' hab' => Agrees.foldlM hstep cs hab'

/-- A loop over indices beside a loop over the elements they stand for. -/
lemma Agrees.foldlM_range {γ : Type} : ∀ (cs : List γ) {f : α → ℕ → Except Stop α}
    {g : β → γ → Except Stop β} {a : α} {b : β},
    (∀ a b i c, R a b → cs[i]? = some c → Agrees R (f a i) (g b c)) → R a b →
      Agrees R ((List.range cs.length).foldlM f a) (cs.foldlM g b)
  | [], _, _, _, _, _, hab => .ok hab
  | c :: cs, f, g, a, b, hstep, hab => by
      rw [List.length_cons, List.range_succ_eq_map, List.foldlM_cons, List.foldlM_cons]
      refine (hstep a b 0 c hab rfl).bind fun a' b' hab' => ?_
      rw [List.foldlM_map]
      exact Agrees.foldlM_range cs (fun a b i c hab hi => hstep a b (i + 1) c hab hi) hab'

end

/-! ## Elements counted by an `int` -/

/-- A list of which an `int` has counted the elements.  Irreducible, since comparing the length of
an open list with `INT_MAX` by unfolding would count there in unary. -/
@[irreducible] def counted {α : Type} (xs : List α) : Except Stop (List α) :=
  if (xs.length : ℤ) ≤ INT_MAX then .ok xs else .error .overflow

lemma counted_of_le {α : Type} {xs : List α} (h : (xs.length : ℤ) ≤ INT_MAX) :
    counted xs = .ok xs := by
  rw [counted, if_pos h]

lemma counted_of_lt {α : Type} {xs : List α} (h : INT_MAX < xs.length) :
    counted xs = .error .overflow := by
  rw [counted, if_neg (Int.not_le.mpr h)]

lemma counted_inv {α : Type} {xs ys : List α} (h : counted xs = .ok ys) : ys = xs := by
  rw [counted] at h
  split at h
  · cases h
    rfl
  · cases h

/-- A call that only adds elements, made more often than an `int` can count. -/
lemma runCalls_replicate_overflows {α : Type} {f : List α → ι → Except Stop (List α × ο)} {i : ι}
    {o : ο} (grow : List α → List α) (hf : ∀ xs, f xs i = do return (← counted (grow xs), o))
    (hgrow : ∀ xs, (grow xs).length = xs.length + 1) (n : ℕ) (xs : List α) (hn : 0 < n)
    (hfull : INT_MAX < xs.length + n) :
    runCalls f xs (List.replicate n i) = .error .overflow := by
  induction n generalizing xs with
  | zero => omega
  | succ n ih =>
      have hlen := hgrow xs
      rw [List.replicate_succ, runCalls, hf]
      by_cases hroom : ((grow xs).length : ℤ) ≤ INT_MAX
      · rw [counted_of_le hroom]
        simp only [ok_bind, pure_eq_ok]
        rw [ih (grow xs) (by omega) (by omega)]
      · rw [counted_of_lt (by omega), error_bind]

end CExercises
