import CExercises.Core.Block

/-!
# `realloc`

`realloc` moves a block into one of another size.  The new block has exactly the cells that were
asked for; it keeps what the old one held, as far as both reach, and the rest of it is arbitrary.
`realloc(NULL, n)` is `malloc(n)`.  That the call fails is the caller's business, since then nothing
changes.
-/

namespace CExercises

variable {α : Type}

/-- A block of `n` cells with the contents of `old`.  `fresh` is what the memory held before. -/
def realloc (old : Option (Block α)) (n : ℤ) (fresh : ℤ → α) : Block α :=
  Block.ofCells n fun i =>
    match old with
    | none => fresh i
    | some a => if a.first ≤ i ∧ i ≤ a.last then a.cells i else fresh i

variable {a : Block α} {n lo hi : ℤ} {fresh : ℤ → α}

/-- What the old block held is still there. -/
lemma seg_realloc (h : a.Covers lo hi) :
    seg (realloc (some a) n fresh).cells lo hi = seg a.cells lo hi :=
  seg_congr fun _ hlo hhi => if_pos ⟨le_trans h.first_le hlo, le_trans hhi h.le_last⟩

end CExercises
