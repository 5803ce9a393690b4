import CExercises.Core.Live
import CExercises.Core.Refinement
import Mathlib.Logic.Equiv.Defs

/-!
# Components behind a pointer

The functions of a component take a pointer to its header, a `malloc`ed struct with a few fields.
Nothing else points at that struct, so a function may as well be given the header by value and hand
the new one back, and most components here are written that way.

A `Handle` is what their clients hold.  `Handle.call` is the function that takes the pointer: it
loads the header, runs the function on it and stores the header back.  `Behind` says that the block
behind the pointer is the only header and holds that of a state, and by `Behind.run` a client that
goes through the pointer sees what it would see of the state itself.  Headers and the blocks they
point at are of different types and never overlap, so each type has a heap of its own.
-/

namespace CExercises

/-- A client's pointer to a header, the heap of the headers, and what the header points into. -/
structure Handle (η ρ : Type) where
  headers : Memory η
  rest : ρ
  ptr : Ptr

namespace Handle

variable {σ η ρ ι ο α : Type}

/-- `p = create()`, for a component whose first state is `s`. -/
def create (e : σ ≃ η × ρ) (M : Malloc η) (s : σ) : Handle η ρ :=
  ⟨(M.alloc Memory.empty (e s).1).2, (e s).2, some (M.alloc Memory.empty (e s).1).1⟩

/-- `f(p)`, for a function that only reads. -/
def read (e : σ ≃ η × ρ) (h : Handle η ρ) (f : σ → Except Stop α) : Except Stop α := do
  let header ← h.headers.load h.ptr
  f (e.symm (header, h.rest))

/-- `f(p)`. -/
def call (e : σ ≃ η × ρ) (f : σ → ι → Except Stop (σ × ο)) (h : Handle η ρ) (i : ι) :
    Except Stop (Handle η ρ × ο) := do
  let header ← h.headers.load h.ptr
  let (s, o) ← f (e.symm (header, h.rest)) i
  let headers ← h.headers.store h.ptr (e s).1
  return (⟨headers, (e s).2, h.ptr⟩, o)

/-- Give back what the header points at, which is what `f` does, and then `free(p)`. -/
def free (e : σ ≃ η × ρ) (f : σ → Except Stop ρ) (h : Handle η ρ) : Except Stop (Handle η ρ) := do
  let rest ← h.read e f
  let headers ← h.headers.free h.ptr
  return ⟨headers, rest, h.ptr⟩

/-- The pointer leads to the header of `s`, and there is no other header. -/
structure Behind (e : σ ≃ η × ρ) (h : Handle η ρ) (s : σ) : Prop where
  header : ∃ p, h.ptr = some p ∧ h.headers.cells p = some (e s).1
    ∧ ∀ q, q ≠ p → h.headers.cells q = none
  rest : h.rest = (e s).2

section

variable {e : σ ≃ η × ρ} {h : Handle η ρ} {s : σ}

lemma behind_create (M : Malloc η) (s : σ) : Behind e (create e M s) s := by
  refine ⟨⟨M.place Memory.empty, rfl, ?_, fun q hq => ?_⟩, rfl⟩
  · simp [create]
  · simp [create, Function.update_of_ne hq]

lemma Behind.blocks (hb : Behind e h s) : h.headers.blocks = 1 := by
  obtain ⟨p, _, hp, hother⟩ := hb.header
  exact Memory.blocks_eq_one (by simp [hp]) hother

lemma Behind.read (hb : Behind e h s) (f : σ → Except Stop α) : h.read e f = f s := by
  obtain ⟨p, hptr, hp, _⟩ := hb.header
  rw [Handle.read, hptr, Memory.load_of_live hp, ok_bind, hb.rest, Prod.mk.eta, e.symm_apply_apply]

/-- **One call** through the pointer is the call on the state. -/
lemma Behind.call (hb : Behind e h s) (f : σ → ι → Except Stop (σ × ο)) (i : ι) :
    Matches (Behind e) (h.call e f i) (f s i) := by
  obtain ⟨p, hptr, hp, hother⟩ := hb.header
  have hstate : e.symm ((e s).1, h.rest) = s := by
    rw [hb.rest, Prod.mk.eta, e.symm_apply_apply]
  have hcall : h.call e f i = (do
      let (s', o) ← f s i
      let headers ← h.headers.store h.ptr (e s').1
      return (⟨headers, (e s').2, h.ptr⟩, o)) := by
    rw [Handle.call, hptr, Memory.load_of_live hp, ok_bind, hstate]
  rw [hcall]
  cases hf : f s i with
  | error stop => rfl
  | ok r =>
      obtain ⟨s', o⟩ := r
      refine ⟨⟨h.headers.write p (some (e s').1) (Memory.lt_brk hp), (e s').2, h.ptr⟩, ?_,
        ⟨p, hptr, ?_, fun q hq => ?_⟩, rfl⟩
      · rw [ok_bind]
        simp only [hptr, Memory.store_of_live hp, ok_bind, pure_eq_ok]
      · simp
      · simp [Function.update_of_ne hq, hother q hq]

/-- **A whole client.** -/
lemma Behind.run (hb : Behind e h s) (f : σ → ι → Except Stop (σ × ο)) (is : List ι) :
    Matches (Behind e) (runCalls (Handle.call e f) h is) (runCalls f s is) :=
  runCalls_matches (fun _ _ i hb => hb.call f i) is h s hb

lemma Behind.run_ok {f : σ → ι → Except Stop (σ × ο)} {is : List ι} {s' : σ} {os : List ο}
    (hb : Behind e h s) (hrun : runCalls f s is = .ok (s', os)) :
    ∃ h', runCalls (Handle.call e f) h is = .ok (h', os) ∧ Behind e h' s' := by
  have hmatch := hb.run f is
  rw [hrun] at hmatch
  exact hmatch

lemma Behind.run_error {f : σ → ι → Except Stop (σ × ο)} {is : List ι} {stop : Stop}
    (hb : Behind e h s) (hrun : runCalls f s is = .error stop) :
    runCalls (Handle.call e f) h is = .error stop := by
  have hmatch := hb.run f is
  rw [hrun] at hmatch
  exact hmatch

/-- When what hangs on the header is gone, `free(p)` leaves no header either. -/
lemma Behind.free (hb : Behind e h s) {f : σ → Except Stop ρ} {rest : ρ} (hf : f s = .ok rest) :
    ∃ h', h.free e f = .ok h' ∧ h'.rest = rest ∧ ∀ p, h'.headers.cells p = none := by
  obtain ⟨p, hptr, hp, hother⟩ := hb.header
  refine ⟨⟨h.headers.write p none (Memory.lt_brk hp), rest, h.ptr⟩, ?_, rfl, fun q => ?_⟩
  · rw [Handle.free, hb.read, hf, ok_bind, hptr, Memory.free_of_live hp]
    rfl
  · show Function.update h.headers.cells p none q = none
    by_cases hq : q = p
    · rw [hq, Function.update_self]
    · rw [Function.update_of_ne hq, hother q hq]

end

end Handle

end CExercises
