import Mathlib.Data.List.Induction
import Mathlib.Data.List.Perm.Basic
import Mathlib.Tactic.Common

/-!
# The atomic stack

What a stack may answer, independently of any implementation.  A history is a list of events in the
order in which they take effect; `lifoRun` replays it on a list and is undefined as soon as an event
does not fit: a pop that does not return the top, or a pop that finds nothing on a stack that is not
empty.

Whatever such a history did, the elements left and the elements popped are together the elements
pushed (`lifoRun_perm`).
-/

namespace CExercises

variable {α : Type}

inductive StackEvent (α : Type)
  | pushed (a : α)
  | popped (a : α)
  | foundEmpty
  deriving DecidableEq

/-- The elements pushed, oldest first. -/
def pushes : List (StackEvent α) → List α
  | [] => []
  | .pushed a :: h => a :: pushes h
  | .popped _ :: h => pushes h
  | .foundEmpty :: h => pushes h

/-- The elements popped, oldest first. -/
def pops : List (StackEvent α) → List α
  | [] => []
  | .pushed _ :: h => pops h
  | .popped a :: h => a :: pops h
  | .foundEmpty :: h => pops h

lemma pushes_append : ∀ h h' : List (StackEvent α), pushes (h ++ h') = pushes h ++ pushes h'
  | [], _ => rfl
  | .pushed a :: h, h' => congrArg (a :: ·) (pushes_append h h')
  | .popped _ :: h, h' => pushes_append h h'
  | .foundEmpty :: h, h' => pushes_append h h'

lemma pops_append : ∀ h h' : List (StackEvent α), pops (h ++ h') = pops h ++ pops h'
  | [], _ => rfl
  | .pushed _ :: h, h' => pops_append h h'
  | .popped a :: h, h' => congrArg (a :: ·) (pops_append h h')
  | .foundEmpty :: h, h' => pops_append h h'

variable [DecidableEq α]

/-- One event on a stack, top first. -/
def lifoStep : List α → StackEvent α → Option (List α)
  | st, .pushed a => some (a :: st)
  | b :: st, .popped a => if a = b then some st else none
  | [], .popped _ => none
  | [], .foundEmpty => some []
  | _ :: _, .foundEmpty => none

/-- A history on a stack that starts empty. -/
def lifoRun (h : List (StackEvent α)) : Option (List α) := h.foldlM lifoStep []

lemma lifoRun_concat (h : List (StackEvent α)) (e : StackEvent α) :
    lifoRun (h ++ [e]) = (lifoRun h).bind fun st => lifoStep st e := by
  simp [lifoRun, List.foldlM_append]

/-- A history that can be replayed can be replayed up to any of its events. -/
lemma lifoRun_at {h h' : List (StackEvent α)} {e : StackEvent α} {st : List α}
    (hrun : lifoRun (h ++ e :: h') = some st) :
    ∃ st₁ st₂, lifoRun h = some st₁ ∧ lifoStep st₁ e = some st₂ := by
  rw [lifoRun, List.foldlM_append] at hrun
  rcases Option.bind_eq_some_iff.mp hrun with ⟨st₁, hst₁, hrest⟩
  rw [List.foldlM_cons] at hrest
  rcases Option.bind_eq_some_iff.mp hrest with ⟨st₂, hst₂, _⟩
  exact ⟨st₁, st₂, hst₁, hst₂⟩

/-- A pop returns the top of the stack that the events before it made. -/
lemma lifoRun_popped {h h' : List (StackEvent α)} {a : α} {st : List α}
    (hrun : lifoRun (h ++ .popped a :: h') = some st) : ∃ st', lifoRun h = some (a :: st') := by
  rcases lifoRun_at hrun with ⟨st₁, st₂, hst₁, hstep⟩
  cases st₁ with
  | nil => cases hstep
  | cons b st' =>
      simp only [lifoStep] at hstep
      split_ifs at hstep with hab
      exact ⟨st', by rw [hab, hst₁]⟩

/-- A pop finds the stack empty only when it is. -/
lemma lifoRun_foundEmpty {h h' : List (StackEvent α)} {st : List α}
    (hrun : lifoRun (h ++ .foundEmpty :: h') = some st) : lifoRun h = some [] := by
  rcases lifoRun_at hrun with ⟨st₁, st₂, hst₁, hstep⟩
  cases st₁ with
  | nil => exact hst₁
  | cons b st' => cases hstep

/-- **Nothing is lost and nothing is duplicated.** -/
theorem lifoRun_perm (h : List (StackEvent α)) : ∀ st, lifoRun h = some st →
    (st ++ pops h).Perm (pushes h) := by
  induction h using List.reverseRecOn with
  | nil =>
      intro st hst
      cases hst
      exact List.Perm.refl _
  | append_singleton h e ih =>
      intro st hst
      rw [lifoRun_concat, Option.bind_eq_some_iff] at hst
      rcases hst with ⟨st₁, hst₁, hstep⟩
      have hperm := ih st₁ hst₁
      rw [pushes_append, pops_append]
      cases e with
      | pushed a =>
          cases hstep
          have hmid : (a :: (st₁ ++ pops h)).Perm (a :: pushes h) := hperm.cons a
          simpa [pushes, pops] using hmid.trans (List.perm_append_singleton a (pushes h)).symm
      | popped a =>
          cases st₁ with
          | nil => cases hstep
          | cons b st' =>
              simp only [lifoStep] at hstep
              split_ifs at hstep with hab
              cases hstep
              subst hab
              have hmid : (st ++ (pops h ++ [a])).Perm (a :: (st ++ pops h)) := by
                rw [← List.append_assoc]
                exact List.perm_append_singleton a (st ++ pops h)
              simpa [pushes, pops] using hmid.trans hperm
      | foundEmpty =>
          cases st₁ with
          | nil =>
              cases hstep
              simpa [pushes, pops] using hperm
          | cons b st' => cases hstep

end CExercises
