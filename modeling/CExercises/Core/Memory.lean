import Mathlib.Data.Int.Notation
import Mathlib.Logic.Function.Basic
import Mathlib.Tactic.Common

/-!
# A heap of C blocks

The programs below keep their data in `malloc`ed nodes that point at each other.  This file is
the heap they run on.

* `Stop` — the ways a call can fail to return: `exit(1)` with its message, or one of the
  undefined behaviours a pointer program can run into, or a loop that never ends.
* `Memory` — which addresses are live and what they hold.  Only finitely many addresses are ever
  live, and the bound `brk` on them is part of the structure, so a heap with no room left cannot
  be built.
* `Malloc` — an allocator.  All that `malloc` promises is that the block it hands out is not
  live; an address that was freed may well come back.

`load`, `store` and `free` check liveness on every access, so a run that ends in `.ok` has
neither followed `NULL` nor touched a freed block.
-/

namespace CExercises

/-- A pointer to a node; `none` is `NULL`. -/
abbrev Ptr := Option ℕ

/-- Why a call does not return. -/
inductive Stop
  | exit (msg : String)
  | nullDeref
  | dangling
  | outOfBounds
  | overflow
  | divByZero
  | diverges
  deriving DecidableEq, Repr

section

variable {α β : Type}

@[simp] lemma ok_bind (a : α) (f : α → Except Stop β) : (Except.ok a >>= f) = f a := rfl

@[simp] lemma error_bind (e : Stop) (f : α → Except Stop β) :
    (Except.error e >>= f) = Except.error e := rfl

/-- A sequence of two commands returns when both of them do. -/
lemma bind_eq_ok {x : Except Stop α} {f : α → Except Stop β} {b : β} :
    (x >>= f) = .ok b ↔ ∃ a, x = .ok a ∧ f a = .ok b := by
  cases x <;> simp

@[simp] lemma pure_eq_ok (a : α) : (pure a : Except Stop α) = Except.ok a := rfl

@[simp] lemma throw_eq_error (e : Stop) : (throw e : Except Stop α) = Except.error e := rfl

end

/-- A heap whose blocks hold an `α`.  Every live address is below `brk`. -/
structure Memory (α : Type) where
  cells : ℕ → Option α
  brk : ℕ
  unused : ∀ p, brk ≤ p → cells p = none

namespace Memory

variable {α : Type}

/-- No block is live. -/
def empty : Memory α := ⟨fun _ => none, 0, fun _ _ => rfl⟩

@[simp] lemma empty_cells (p : ℕ) : (empty : Memory α).cells p = none := rfl

lemma lt_brk {m : Memory α} {p : ℕ} {a : α} (h : m.cells p = some a) : p < m.brk := by
  by_contra hp
  rw [m.unused p (by omega)] at h
  cases h

lemma ext_cells {m m' : Memory α} (hcells : m.cells = m'.cells) (hbrk : m.brk = m'.brk) :
    m = m' := by
  cases m
  cases m'
  cases hcells
  cases hbrk
  rfl

/-- Replace what an address below `brk` holds. -/
def write (m : Memory α) (p : ℕ) (o : Option α) (hp : p < m.brk) : Memory α where
  cells := Function.update m.cells p o
  brk := m.brk
  unused := by
    intro q hq
    rw [Function.update_of_ne (by omega)]
    exact m.unused q hq

@[simp] lemma write_cells (m : Memory α) (p : ℕ) (o : Option α) (hp : p < m.brk) :
    (m.write p o hp).cells = Function.update m.cells p o := rfl

@[simp] lemma write_brk (m : Memory α) (p : ℕ) (o : Option α) (hp : p < m.brk) :
    (m.write p o hp).brk = m.brk := rfl

/-- `*p`. -/
def load (m : Memory α) : Ptr → Except Stop α
  | none => .error .nullDeref
  | some p =>
      match m.cells p with
      | none => .error .dangling
      | some a => .ok a

/-- `*p = a`. -/
def store (m : Memory α) (p : Ptr) (a : α) : Except Stop (Memory α) :=
  match p with
  | none => .error .nullDeref
  | some p =>
      match h : m.cells p with
      | none => .error .dangling
      | some _ => .ok (m.write p (some a) (lt_brk h))

/-- `free(p)`; freeing `NULL` does nothing, freeing a block twice is an error. -/
def free (m : Memory α) (p : Ptr) : Except Stop (Memory α) :=
  match p with
  | none => .ok m
  | some p =>
      match h : m.cells p with
      | none => .error .dangling
      | some _ => .ok (m.write p none (lt_brk h))

lemma load_of_live {m : Memory α} {p : ℕ} {a : α} (h : m.cells p = some a) :
    m.load (some p) = .ok a := by
  simp [load, h]

/-- Only a live block can be read. -/
lemma live_of_load {m : Memory α} {p : Ptr} {a : α} (h : m.load p = .ok a) :
    ∃ q, p = some q ∧ m.cells q = some a := by
  cases p with
  | none => cases h
  | some q =>
      refine ⟨q, rfl, ?_⟩
      simp only [load] at h
      split at h
      · cases h
      · rename_i hq
        cases h
        exact hq

lemma store_of_live {m : Memory α} {p : ℕ} {b : α} (h : m.cells p = some b) (a : α) :
    m.store (some p) a = .ok (m.write p (some a) (lt_brk h)) := by
  simp only [store]
  split
  · rename_i h'
    rw [h'] at h
    cases h
  · rfl

lemma free_of_live {m : Memory α} {p : ℕ} {b : α} (h : m.cells p = some b) :
    m.free (some p) = .ok (m.write p none (lt_brk h)) := by
  simp only [free]
  split
  · rename_i h'
    rw [h'] at h
    cases h
  · rfl

lemma free_of_dead {m : Memory α} {p : ℕ} (h : m.cells p = none) :
    m.free (some p) = .error .dangling := by
  simp only [free]
  split
  · rfl
  · rename_i h'
    rw [h] at h'
    cases h'

end Memory

/-- An allocator: where the next block goes.  The choice may depend on the heap in any way, and
may reuse an address that was freed. -/
structure Malloc (α : Type) where
  place : Memory α → ℕ
  fresh : ∀ m : Memory α, m.cells (place m) = none

namespace Malloc

variable {α : Type}

/-- The allocator that never reuses an address. -/
def bump : Malloc α := ⟨fun m => m.brk, fun m => m.unused _ (Nat.le_refl _)⟩

/-- `p = malloc(sizeof *p); *p = a;` on a heap that has room. -/
def alloc (M : Malloc α) (m : Memory α) (a : α) : ℕ × Memory α :=
  (M.place m,
    { cells := Function.update m.cells (M.place m) (some a)
      brk := max m.brk (M.place m + 1)
      unused := by
        intro q hq
        rw [Function.update_of_ne (by omega)]
        exact m.unused q (by omega) })

@[simp] lemma alloc_fst (M : Malloc α) (m : Memory α) (a : α) :
    (M.alloc m a).1 = M.place m := rfl

@[simp] lemma alloc_cells (M : Malloc α) (m : Memory α) (a : α) :
    (M.alloc m a).2.cells = Function.update m.cells (M.place m) (some a) := rfl

end Malloc

end CExercises
