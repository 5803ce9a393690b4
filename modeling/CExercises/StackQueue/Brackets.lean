import CExercises.Core.Block
import CExercises.Core.CInt
import CExercises.Core.CString
import CExercises.Core.Dyck

/-!
# Bracket balancing

`brackets_balanced` of `stack_queue.c` reads a string once and keeps the brackets that are open in
`char stk[256]`.  The loop runs over `s[i]` with an `int i`, so the string has to be shorter than
`2 ^ 31`; incrementing `i` past `INT_MAX` stops the model.

The array with its index `top` is the stack of the machine in `Core/Dyck.lean`, which has room for
256 open brackets, and what the machine accepts is the grammar.
-/

namespace CExercises.StackQueue

open CExercises.Bracket

/-- The loop of `brackets_balanced` with the string from `s[i]` on still to be read. -/
def bracketsFrom (i top : ℤ) (stk : Block UInt8) : List UInt8 → Except Stop ℤ
  | [] => return if top = -1 then 1 else 0
  | c :: rest => do
      if c = ch '(' ∨ c = ch '[' ∨ c = ch '{' then
        -- stack full, treated as unbalanced
        if top ≥ 255 then return 0
        let stk ← stk.store (top + 1) c
        bracketsFrom (← intSucc i) (top + 1) stk rest
      else if c = ch ')' ∨ c = ch ']' ∨ c = ch '}' then
        -- closer with no matching opener
        if top < 0 then return 0
        let opener ← stk.load top
        if (c = ch ')' ∧ opener ≠ ch '(') ∨ (c = ch ']' ∧ opener ≠ ch '[')
            ∨ (c = ch '}' ∧ opener ≠ ch '{') then return 0
        bracketsFrom (← intSucc i) (top - 1) stk rest
      else
        bracketsFrom (← intSucc i) top stk rest

/-- `brackets_balanced`; `uninit` is what `stk` happens to hold. -/
def bracketsBalanced (uninit : ℤ → UInt8) (s : CStr) : Except Stop ℤ :=
  bracketsFrom 0 (-1) (Block.ofCells 256 uninit) s.bytes

/-! ## The brackets of a string -/

/-- The three kinds of brackets. -/
inductive Kind
  | round
  | square
  | curly
  deriving DecidableEq

def Kind.openingByte : Kind → UInt8
  | round => ch '('
  | square => ch '['
  | curly => ch '{'

def Kind.closingByte : Kind → UInt8
  | round => ch ')'
  | square => ch ']'
  | curly => ch '}'

/-- The bracket a character is, if it is one. -/
def bracket (c : UInt8) : Option (Bracket Kind) :=
  if c = ch '(' then some (.opening .round)
  else if c = ch '[' then some (.opening .square)
  else if c = ch '{' then some (.opening .curly)
  else if c = ch ')' then some (.closing .round)
  else if c = ch ']' then some (.closing .square)
  else if c = ch '}' then some (.closing .curly)
  else none

/-- The string without the characters that are not brackets. -/
def brackets (s : CStr) : List (Bracket Kind) := s.bytes.filterMap bracket

lemma bracket_openingByte (k : Kind) : bracket k.openingByte = some (.opening k) := by
  cases k <;> decide

lemma bracket_closingByte (k : Kind) : bracket k.closingByte = some (.closing k) := by
  cases k <;> decide

/-- The test for an opener in the source. -/
lemma opening_iff {c : UInt8} :
    (c = ch '(' ∨ c = ch '[' ∨ c = ch '{') ↔ ∃ k : Kind, c = k.openingByte := by
  constructor
  · rintro (rfl | rfl | rfl)
    · exact ⟨.round, rfl⟩
    · exact ⟨.square, rfl⟩
    · exact ⟨.curly, rfl⟩
  · rintro ⟨k, rfl⟩
    cases k <;> simp [Kind.openingByte]

/-- The test for a closer. -/
lemma closing_iff {c : UInt8} :
    (c = ch ')' ∨ c = ch ']' ∨ c = ch '}') ↔ ∃ k : Kind, c = k.closingByte := by
  constructor
  · rintro (rfl | rfl | rfl)
    · exact ⟨.round, rfl⟩
    · exact ⟨.square, rfl⟩
    · exact ⟨.curly, rfl⟩
  · rintro ⟨k, rfl⟩
    cases k <;> simp [Kind.closingByte]

lemma bracket_eq_none {c : UInt8} (hopen : ¬ ∃ k : Kind, c = k.openingByte)
    (hclose : ¬ ∃ k : Kind, c = k.closingByte) : bracket c = none := by
  rw [← opening_iff, not_or, not_or] at hopen
  rw [← closing_iff, not_or, not_or] at hclose
  simp [bracket, hopen, hclose]

/-- The test for a mismatch. -/
lemma mismatch_iff (k k' : Kind) :
    ((k.closingByte = ch ')' ∧ k'.openingByte ≠ ch '(')
      ∨ (k.closingByte = ch ']' ∧ k'.openingByte ≠ ch '[')
      ∨ (k.closingByte = ch '}' ∧ k'.openingByte ≠ ch '{')) ↔ k ≠ k' := by
  cases k <;> cases k' <;> decide

/-! ## The array is the machine's stack -/

/-- The cells from 0 on hold the open brackets, the innermost one last. -/
def HoldsStack (f : ℤ → UInt8) : List Kind → Prop
  | [] => True
  | k :: st => f st.length = k.openingByte ∧ HoldsStack f st

lemma HoldsStack.congr {f g : ℤ → UInt8} : ∀ {st : List Kind}, HoldsStack f st →
    (∀ i, i < (st.length : ℤ) → g i = f i) → HoldsStack g st
  | [], _, _ => trivial
  | k :: st, ⟨htop, hrest⟩, hfg => by
      rw [List.length_cons] at hfg
      refine ⟨?_, hrest.congr fun i hi => hfg i (by omega)⟩
      rw [hfg _ (by omega)]
      exact htop

/-- Pushing writes the first free cell. -/
lemma HoldsStack.push {f : ℤ → UInt8} {st : List Kind} (h : HoldsStack f st) (k : Kind) :
    HoldsStack (Function.update f st.length k.openingByte) (k :: st) :=
  ⟨Function.update_self _ _ _, h.congr fun _ hi => Function.update_of_ne (ne_of_lt hi) _ _⟩

/-- **The loop is the machine.** -/
lemma bracketsFrom_eq : ∀ (bytes : List UInt8) (i : ℤ) (stk : Block UInt8) (st : List Kind),
    i + bytes.length ≤ INT_MAX → st.length ≤ 256 → stk.Covers 0 255 → HoldsStack stk.cells st →
    bracketsFrom i (st.length - 1) stk bytes
      = .ok (if scan 256 st (bytes.filterMap bracket) = some [] then 1 else 0)
  | [], i, stk, st, _, _, _, _ => by
      have hempty : (st.length : ℤ) - 1 = -1 ↔ st = [] := by
        rw [← List.length_eq_zero_iff]
        omega
      simp [bracketsFrom, scan, hempty]
  | c :: rest, i, stk, st, hi, hroom, hcov, hst => by
      rw [List.length_cons] at hi
      push_cast at hi
      have hsucc : intSucc i = .ok (i + 1) := intSucc_eq (by omega)
      have ih := bracketsFrom_eq rest (i + 1)
      by_cases hopen : ∃ k : Kind, c = k.openingByte
      · rw [bracketsFrom, if_pos (opening_iff.mpr hopen)]
        rcases hopen with ⟨k, rfl⟩
        rw [List.filterMap_cons_some (bracket_openingByte k), scan]
        by_cases hfull : 256 ≤ st.length
        · rw [if_pos (show (st.length : ℤ) - 1 ≥ 255 by omega), if_pos hfull]
          rfl
        · have hpush := ih (stk.withCells (Function.update stk.cells st.length k.openingByte))
            (k :: st) (by omega) (by rw [List.length_cons]; omega) (hcov.withCells _) (hst.push k)
          rw [List.length_cons] at hpush
          push_cast at hpush
          rw [if_neg (show ¬ (st.length : ℤ) - 1 ≥ 255 by omega), if_neg hfull]
          simpa [hcov.store (show (0 : ℤ) ≤ st.length by omega)
            (show (st.length : ℤ) ≤ 255 by omega), hsucc] using hpush
      · rw [bracketsFrom, if_neg (fun h => hopen (opening_iff.mp h))]
        by_cases hclose : ∃ k : Kind, c = k.closingByte
        · rw [if_pos (closing_iff.mpr hclose)]
          rcases hclose with ⟨k, rfl⟩
          rw [List.filterMap_cons_some (bracket_closingByte k)]
          cases st with
          | nil => simp [scan]
          | cons k' st =>
              rw [List.length_cons] at hroom
              rcases hst with ⟨htop, hrest⟩
              have hload : stk.load (st.length : ℤ) = .ok k'.openingByte := by
                rw [hcov.load (by omega) (by omega), htop]
              have hpop := ih stk st (by omega) (by omega) hcov hrest
              have hlevel : (((k' :: st).length : ℕ) : ℤ) - 1 = st.length := by
                rw [List.length_cons]
                omega
              rw [hlevel, if_neg (show ¬ (st.length : ℤ) < 0 by omega), scan, hload]
              simp only [ok_bind, mismatch_iff]
              by_cases hk : k = k'
              · simpa [hk, hsucc] using hpop
              · simp [hk]
        · rw [if_neg (fun h => hclose (closing_iff.mp h)),
            List.filterMap_cons_none (bracket_eq_none hopen hclose), hsucc]
          exact ih stk st (by omega) hroom hcov hst

/-- **`brackets_balanced` decides its grammar**: it returns 1 on the strings whose brackets the
grammar derives with at most 256 of them open at once, and 0 on all others. -/
theorem brackets_balanced_iff (uninit : ℤ → UInt8) (s : CStr) (hlen : s.strlen < 2147483648) :
    ∃ r, bracketsBalanced uninit s = .ok r
      ∧ (r = 1 ↔ Derives (brackets s) ∧ depth (brackets s) ≤ 256)
      ∧ (r = 0 ↔ ¬ (Derives (brackets s) ∧ depth (brackets s) ≤ 256)) := by
  have hbound : (0 : ℤ) + s.bytes.length ≤ INT_MAX := by
    unfold CStr.strlen at hlen
    unfold INT_MAX
    omega
  have hrun := bracketsFrom_eq s.bytes 0 (Block.ofCells 256 uninit) [] hbound (Nat.zero_le _)
    ⟨le_refl _, le_refl _⟩ trivial
  refine ⟨_, hrun, ?_, ?_⟩
  · rw [← scan_eq_nil_iff]
    simp [brackets]
  · rw [← scan_eq_nil_iff]
    simp [brackets]

/-- `"{[()]}"` is balanced. -/
theorem brackets_balanced_iff_nested :
    bracketsBalanced (fun _ => 0) ⟨[123, 91, 40, 41, 93, 125], by simp⟩ = .ok 1
    ∧ ∃ r, bracketsBalanced (fun _ => 0) ⟨[123, 91, 40, 41, 93, 125], by simp⟩ = .ok r
      ∧ (r = 1 ↔ Derives (brackets ⟨[123, 91, 40, 41, 93, 125], by simp⟩)
          ∧ depth (brackets ⟨[123, 91, 40, 41, 93, 125], by simp⟩) ≤ 256)
      ∧ (r = 0 ↔ ¬ (Derives (brackets ⟨[123, 91, 40, 41, 93, 125], by simp⟩)
          ∧ depth (brackets ⟨[123, 91, 40, 41, 93, 125], by simp⟩) ≤ 256)) :=
  ⟨rfl, brackets_balanced_iff (fun _ => 0) _ (by simp [CStr.strlen])⟩

end CExercises.StackQueue
