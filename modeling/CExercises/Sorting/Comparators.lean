import CExercises.Core.CInt
import Mathlib.Algebra.Order.Ring.Int
import Mathlib.Data.Set.Insert
import Mathlib.Order.RelClasses

/-!
# The comparators given to `qsort`

`sorting.c` and `generics.c` both sort players by descending score.  `generics.c` compares the two
scores twice; `sorting.c` subtracts them, although its own `cmp_asc` avoids that and says why:
"subtraction overflows for large mixed-sign values".  The difference is taken here as the machine
takes it, wrapped to 32 bits.
-/

namespace CExercises.Sorting

/-- `struct Player` of either file, as far as the comparators read it. -/
structure Player where
  score : ℤ
  isInt : FitsInt score

/-- `(x > y) - (x < y)`. -/
def threeWay (x y : ℤ) : ℤ := (if x > y then 1 else 0) - (if x < y then 1 else 0)

def cmpAsc (a b : ℤ) : ℤ := threeWay a b

def cmpDesc (a b : ℤ) : ℤ := threeWay b a

/-- `cmp_player_score` of `sorting.c`. -/
def cmpPlayerScore (a b : Player) : ℤ := toInt (b.score - a.score)

/-- `cmp_player_score` of `generics.c`. -/
def cmpPlayerScoreGenerics (a b : Player) : ℤ := threeWay b.score a.score

/-- What `qsort` and the two files expect of the comparator of `sorting.c` on some players. -/
structure SortsByScore (players : Set Player) : Prop where
  agrees : ∀ a ∈ players, ∀ b ∈ players,
    (cmpPlayerScore a b).sign = (cmpPlayerScoreGenerics a b).sign
  antisymm : ∀ a ∈ players, ∀ b ∈ players, (cmpPlayerScore b a).sign = -(cmpPlayerScore a b).sign
  order : IsStrictWeakOrder players fun a b => cmpPlayerScore a b < 0
  descending : ∀ a ∈ players, ∀ b ∈ players, cmpPlayerScore a b < 0 ↔ b.score < a.score

lemma threeWay_eq_sign (x y : ℤ) : threeWay x y = (x - y).sign := by
  unfold threeWay
  rcases lt_trichotomy x y with h | rfl | h
  · rw [Int.sign_eq_neg_one_of_neg (by omega)]
    simp [h, Int.le_of_lt h]
  · simp
  · rw [Int.sign_eq_one_of_pos (by omega)]
    simp [h, Int.le_of_lt h]

/-- The two comparators agree on a pair exactly when the subtraction does not overflow. -/
lemma signs_agree_iff (a b : Player) :
    (cmpPlayerScore a b).sign = (cmpPlayerScoreGenerics a b).sign
      ↔ FitsInt (b.score - a.score) := by
  have ha := a.isInt
  have hb := b.isInt
  unfold FitsInt INT_MIN INT_MAX at ha hb
  rw [cmpPlayerScoreGenerics, threeWay_eq_sign, Int.sign_sign, cmpPlayerScore,
    sign_toInt_iff (by omega) (by omega)]

lemma cmpPlayerScore_eq {a b : Player} (h : FitsInt (b.score - a.score)) :
    cmpPlayerScore a b = b.score - a.score := toInt_eq_self_iff.mpr h

/-- **When the comparator of `sorting.c` is right.**  On a set of players it agrees with the one of
`generics.c` and is a strict weak order by descending score exactly when the difference of any
two of their scores is an `int`. -/
theorem sorts_by_score_iff (players : Set Player) :
    SortsByScore players ↔ ∀ a ∈ players, ∀ b ∈ players, FitsInt (b.score - a.score) := by
  constructor
  · intro h a ha b hb
    exact (signs_agree_iff a b).mp (h.agrees a ha b hb)
  · intro h
    have hcmp : ∀ a ∈ players, ∀ b ∈ players, cmpPlayerScore a b = b.score - a.score :=
      fun a ha b hb => cmpPlayerScore_eq (h a ha b hb)
    have hlt : ∀ a ∈ players, ∀ b ∈ players, cmpPlayerScore a b < 0 ↔ b.score < a.score := by
      intro a ha b hb
      rw [hcmp a ha b hb]
      omega
    refine ⟨fun a ha b hb => (signs_agree_iff a b).mpr (h a ha b hb), ?_, ?_, hlt⟩
    · intro a ha b hb
      rw [hcmp a ha b hb, hcmp b hb a ha, ← Int.sign_neg, neg_sub]
    · exact
        { irrefl := by
            rintro ⟨a, ha⟩ hself
            exact lt_irrefl _ ((hlt a ha a ha).mp hself)
          trans := by
            rintro ⟨a, ha⟩ ⟨b, hb⟩ ⟨c, hc⟩ hab hbc
            exact (hlt a ha c hc).mpr
              (lt_trans ((hlt b hb c hc).mp hbc) ((hlt a ha b hb).mp hab))
          incomp_trans := by
            rintro ⟨a, ha⟩ ⟨b, hb⟩ ⟨c, hc⟩ hab hbc
            simp only [hlt a ha b hb, hlt b hb a ha, hlt b hb c hc, hlt c hc b hb, hlt a ha c hc,
              hlt c hc a ha, not_lt] at hab hbc ⊢
            exact ⟨le_trans hab.1 hbc.1, le_trans hbc.2 hab.2⟩ }

/-- Three scores, far apart, on which the comparator of `sorting.c` goes round in a circle: each of
the first two players comes before the next one, and the last before the first. -/
theorem scores_far_apart_go_round :
    let ada : Player := ⟨1500000000, by decide⟩
    let bob : Player := ⟨0, by decide⟩
    let cyd : Player := ⟨-1500000000, by decide⟩
    cmpPlayerScore ada bob < 0 ∧ cmpPlayerScore bob cyd < 0 ∧ cmpPlayerScore cyd ada < 0
      ∧ (cmpPlayerScore ada cyd).sign = 1 ∧ (cmpPlayerScoreGenerics ada cyd).sign = -1
      ∧ ¬ SortsByScore {ada, bob, cyd} := by
  intro ada bob cyd
  refine ⟨by decide, by decide, by decide, by decide, by decide, fun h => ?_⟩
  have hagree := h.agrees ada (by simp) cyd (by simp)
  exact absurd hagree (by decide)

end CExercises.Sorting
