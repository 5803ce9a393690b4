import Mathlib.Order.Lattice
import Mathlib.Data.Nat.Notation
import Mathlib.Tactic.Common

/-!
# Words of matching brackets

Brackets come in kinds, and a word of them is well nested if the grammar `S → ε | (S)S` derives it,
with one pair of terminals for each kind.  `scan` is the machine that decides it: it pushes what is
opened, compares what is closed with the top of its stack, and has room for `cap` open brackets.

`scan_eq_nil_iff` says what it accepts: the well-nested words of depth at most `cap`.

* One direction reads the run backwards.  What is left of the word closes the brackets on the stack
  one after the other, with a well-nested word before each (`Closes`).
* The other is an induction on the derivation: a well-nested word brings the machine back to the
  stack it started from.
-/

namespace CExercises

/-- A bracket of some kind. -/
inductive Bracket (κ : Type)
  | opening (k : κ)
  | closing (k : κ)
  deriving DecidableEq

namespace Bracket

variable {κ : Type} {cap l : ℕ} {k : κ} {st r : List κ} {u v w x : List (Bracket κ)}

/-- The words the grammar `S → ε | (S)S` derives. -/
inductive Derives : List (Bracket κ) → Prop
  | nil : Derives []
  | pair (k : κ) {u v : List (Bracket κ)} : Derives u → Derives v →
      Derives (.opening k :: (u ++ .closing k :: v))

/-- The largest number of brackets open at once, when `l` are open at the start. -/
def depthFrom : ℕ → List (Bracket κ) → ℕ
  | l, [] => l
  | l, .opening _ :: w => max l (depthFrom (l + 1) w)
  | l, .closing _ :: w => max l (depthFrom (l - 1) w)

/-- The maximal nesting depth of a word. -/
def depth (w : List (Bracket κ)) : ℕ := depthFrom 0 w

lemma le_depthFrom : ∀ (l : ℕ) (w : List (Bracket κ)), l ≤ depthFrom l w
  | _, [] => le_refl _
  | _, .opening _ :: _ => le_max_left _ _
  | _, .closing _ :: _ => le_max_left _ _

/-- A well-nested word returns to the level it started from. -/
lemma Derives.depthFrom_append (h : Derives u) :
    ∀ (l : ℕ) (x : List (Bracket κ)),
      depthFrom l (u ++ x) = max (depthFrom l u) (depthFrom l x) := by
  induction h with
  | nil =>
      intro l x
      simp [depthFrom, le_depthFrom]
  | pair k _ _ ihu ihv =>
      intro l x
      simp only [List.cons_append, List.append_assoc, depthFrom, ihu, ihv, Nat.add_sub_cancel]
      simp only [max_assoc]

/-- A word that closes the given brackets, well nested in between. -/
inductive Closes : List κ → List (Bracket κ) → Prop
  | nil {w : List (Bracket κ)} : Derives w → Closes [] w
  | cons {k : κ} {st : List κ} {u v : List (Bracket κ)} : Derives u → Closes st v →
      Closes (k :: st) (u ++ .closing k :: v)

/-- A matching pair may be put in front. -/
lemma Closes.pair (hu : Derives u) (h : Closes st v) :
    Closes st (.opening k :: (u ++ .closing k :: v)) := by
  cases h with
  | nil hv => exact .nil (.pair k hu hv)
  | @cons k' st u' v hu' hv =>
      have hpair := Closes.cons (k := k') (Derives.pair k hu hu') hv
      simpa using hpair

/-! ## The machine -/

section

variable [DecidableEq κ]

/-- Read a word with a stack of open brackets; `none` when the word is rejected. -/
def scan (cap : ℕ) : List κ → List (Bracket κ) → Option (List κ)
  | st, [] => some st
  | st, .opening k :: w => if cap ≤ st.length then none else scan cap (k :: st) w
  | [], .closing _ :: _ => none
  | k' :: st, .closing k :: w => if k = k' then scan cap st w else none

lemma scan_depth (h : scan cap st w = some r) (hst : st.length ≤ cap) :
    depthFrom st.length w ≤ cap := by
  induction w generalizing st with
  | nil => exact hst
  | cons b w ih =>
      cases b with
      | opening k =>
          rw [scan] at h
          split_ifs at h with hfull
          have hdeep := ih h (by rw [List.length_cons]; omega)
          exact max_le hst (by simpa using hdeep)
      | closing k =>
          cases st with
          | nil => simp [scan] at h
          | cons k' st =>
              rw [scan] at h
              split_ifs at h
              rw [List.length_cons] at hst
              have hdeep := ih h (by omega)
              exact max_le hst (by simpa using hdeep)

lemma closes_of_scan (h : scan cap st w = some []) : Closes st w := by
  induction w generalizing st with
  | nil =>
      cases h
      exact .nil .nil
  | cons b w ih =>
      cases b with
      | opening k =>
          rw [scan] at h
          split_ifs at h
          cases ih h with
          | cons hu hv => exact hv.pair hu
      | closing k =>
          cases st with
          | nil => simp [scan] at h
          | cons k' st =>
              rw [scan] at h
              split_ifs at h with hk
              subst hk
              exact .cons .nil (ih h)

/-- A well-nested word that fits leaves the stack as it was. -/
lemma Derives.scan_append (h : Derives u) : ∀ (st : List κ) (x : List (Bracket κ)),
    depthFrom st.length u ≤ cap → scan cap st (u ++ x) = scan cap st x := by
  induction h with
  | nil => exact fun _ _ _ => rfl
  | @pair k u v hu _ ihu ihv =>
      intro st x hcap
      simp only [depthFrom, hu.depthFrom_append, Nat.add_sub_cancel, Nat.max_le] at hcap
      rcases hcap with ⟨_, hdu, _, hdv⟩
      have hroom := le_trans (le_depthFrom _ _) hdu
      simp only [List.cons_append, List.append_assoc, scan]
      rw [if_neg (by omega), ihu (k :: st) _ hdu]
      simp only [scan, if_true]
      exact ihv st x hdv

/-- **The machine decides the grammar**, up to its capacity. -/
theorem scan_eq_nil_iff : scan cap [] w = some [] ↔ Derives w ∧ depth w ≤ cap := by
  constructor
  · intro h
    refine ⟨?_, scan_depth h (Nat.zero_le cap)⟩
    cases closes_of_scan h with
    | nil hw => exact hw
  · rintro ⟨hw, hcap⟩
    have hscan := hw.scan_append [] [] hcap
    rw [List.append_nil] at hscan
    rw [hscan, scan]

end

end Bracket

end CExercises
