import CExercises.Core.Memory
import Mathlib.Logic.Function.Basic

/-!
# Pipes

What the kernel keeps for pipes that processes have inherited from each other: the bytes that have
been written and not yet read, and for every process which of the two ends of each pipe it holds.

A read takes what there is.  On an empty pipe it waits as long as *any* process holds the write end,
and it returns the end of the file when no process does; a process that waits on a pipe whose write
end it holds itself waits for ever.  A write of at most `PIPE_BUF` bytes is done at once, provided
some process holds the read end; without one it raises `SIGPIPE`.
-/

namespace CExercises

/-- `fd[0]` and `fd[1]`. -/
inductive End (Q : Type)
  | r (q : Q)
  | w (q : Q)
  deriving DecidableEq

structure Pipes (P Q : Type) where
  buf : Q → List UInt8
  held : P → End Q → Bool

/-- A write of so many bytes is atomic. -/
def PIPE_BUF : ℕ := 4096

namespace Pipes

variable {P Q : Type}

/-- Some process holds this end. -/
def IsOpen (k : Pipes P Q) (e : End Q) : Prop := ∃ p, k.held p e = true

/-- `close`. -/
def close [DecidableEq P] [DecidableEq Q] (k : Pipes P Q) (p : P) (e : End Q) : Pipes P Q :=
  { k with held := Function.update k.held p (Function.update (k.held p) e false) }

section

variable [DecidableEq Q]

def put (k : Pipes P Q) (q : Q) (bytes : List UInt8) : Pipes P Q :=
  { k with buf := Function.update k.buf q (k.buf q ++ bytes) }

def skip (k : Pipes P Q) (q : Q) (n : ℕ) : Pipes P Q :=
  { k with buf := Function.update k.buf q ((k.buf q).drop n) }

/-- `write`, which succeeds. -/
inductive Write (k : Pipes P Q) (p : P) (q : Q) (bytes : List UInt8) : Pipes P Q → Prop
  | all (hheld : k.held p (.w q) = true) (hsize : bytes.length ≤ PIPE_BUF)
      (hreader : k.IsOpen (.r q)) : Write k p q bytes (k.put q bytes)

/-- `write` to a pipe that nobody can read. -/
def Broken (k : Pipes P Q) (p : P) (q : Q) : Prop :=
  k.held p (.w q) = true ∧ ¬ k.IsOpen (.r q)

/-- `read` of at most `max` bytes, and what it returns. -/
inductive Read (k : Pipes P Q) (p : P) (q : Q) (max : ℕ) : List UInt8 → Pipes P Q → Prop
  | data (hheld : k.held p (.r q) = true) (hdata : k.buf q ≠ []) :
      Read k p q max ((k.buf q).take max) (k.skip q max)
  | eof (hheld : k.held p (.r q) = true) (hempty : k.buf q = []) (hclosed : ¬ k.IsOpen (.w q)) :
      Read k p q max [] k

variable {k k' : Pipes P Q} {p : P} {q : Q} {max : ℕ} {bytes : List UInt8}

/-- In either case a read returns the beginning of what is in the pipe. -/
lemma Read.eq (h : Read k p q max bytes k') : bytes = (k.buf q).take max ∧ k' = k.skip q max := by
  cases h with
  | data hheld hdata => exact ⟨rfl, rfl⟩
  | eof hheld hempty hclosed =>
      refine ⟨by rw [hempty, List.take_nil], ?_⟩
      have hbuf : Function.update k.buf q ((k.buf q).drop max) = k.buf := by
        rw [hempty, List.drop_nil, ← hempty, Function.update_eq_self]
      rw [skip, hbuf]

/-- A read does not wait when there is something to read or nobody can write. -/
lemma exists_read (max : ℕ) (hheld : k.held p (.r q) = true)
    (hready : k.buf q ≠ [] ∨ ¬ k.IsOpen (.w q)) : ∃ bytes k', Read k p q max bytes k' := by
  by_cases hdata : k.buf q = []
  · exact ⟨_, _, .eof hheld hdata (hready.resolve_left (not_not_intro hdata))⟩
  · exact ⟨_, _, .data hheld hdata⟩

/-- Reading and writing change no descriptor, and closing no bytes. -/
@[simp] lemma put_held (k : Pipes P Q) (q : Q) (bytes : List UInt8) :
    (k.put q bytes).held = k.held := rfl

@[simp] lemma skip_held (k : Pipes P Q) (q : Q) (n : ℕ) : (k.skip q n).held = k.held := rfl

end

@[simp] lemma close_buf [DecidableEq P] [DecidableEq Q] (k : Pipes P Q) (p : P) (e : End Q) :
    (k.close p e).buf = k.buf := rfl

end Pipes

end CExercises
