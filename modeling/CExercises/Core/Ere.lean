import CExercises.Core.CString
import Mathlib.Data.List.Infix

/-!
# Extended regular expressions

POSIX extended regular expressions over bytes, in the C locale and without `REG_NEWLINE` and
`REG_ICASE`.  `regcomp` reads a pattern into a tree; groups only group, since nothing here asks what
a subexpression matched.

The meaning of a tree is a relation: `Takes bol re u v` says that `re` can take the front of `u` and
leave `v`.  Both are what is left of the same text, which is why `$` is at its place when nothing is
left, and `^` when as much is left as there was at the start.  `rests` computes the same relation;
the one difficulty is an unbounded repetition, where repetitions that take nothing can be dropped
and so the length of the text bounds their number (`Iter.bounded`).

`regexec` reports the leftmost match, and of those the longest.
-/

namespace CExercises.Ere

/-- A bracket expression: some ranges of bytes, or all the other bytes. -/
structure Bracket where
  negated : Bool
  ranges : List (UInt8 × UInt8)
  deriving DecidableEq

/-- The byte is one of the bracket expression. -/
def Bracket.has (b : Bracket) (c : UInt8) : Bool :=
  (b.ranges.any fun r => r.1 ≤ c && c ≤ r.2) != b.negated

/-- Parsed patterns. -/
inductive Re
  | empty
  | one (b : Bracket)
  | bol
  | eol
  | seq (a b : Re)
  | alt (a b : Re)
  /-- From `lo` to `hi` times; `none` is no bound. -/
  | rep (a : Re) (lo : ℕ) (hi : Option ℕ)
  deriving DecidableEq

/-- An ordinary character. -/
def Re.char (c : Char) : Re := .one ⟨false, [(ch c, ch c)]⟩

/-! ## `regcomp` -/

/-- A bracket expression up to its `]`, which stands for itself in the first place.  Named classes
are not read. -/
def readBracket (first : Bool) : List Char → Option (List (UInt8 × UInt8) × List Char)
  | [] => none
  | [c] => if c = ']' ∧ ¬ first then some ([], []) else none
  | c :: '-' :: d :: cs =>
      if c = ']' ∧ ¬ first then some ([], '-' :: d :: cs)
      else if d = ']' then some ([(ch c, ch c), (ch '-', ch '-')], cs)
      else if ch c ≤ ch d then do
        let (rs, cs) ← readBracket false cs
        return ((ch c, ch d) :: rs, cs)
      else none
  | c :: d :: cs =>
      if c = ']' ∧ ¬ first then some ([], d :: cs)
      else if c = '[' ∧ (d = ':' ∨ d = '.' ∨ d = '=') then none
      else do
        let (rs, cs) ← readBracket false (d :: cs)
        return ((ch c, ch c) :: rs, cs)

/-- The digits in front, as a number. -/
def readNumber (cs : List Char) : Option (ℕ × List Char) :=
  let ds := cs.takeWhile Char.isDigit
  if ds.isEmpty then none
  else some (ds.foldl (fun n d => 10 * n + (d.toNat - 48)) 0, cs.dropWhile Char.isDigit)

/-- An interval, behind its opening brace. -/
def readInterval (cs : List Char) : Option ((ℕ × Option ℕ) × List Char) := do
  let (lo, cs) ← readNumber cs
  match cs with
  | '\x7d' :: cs => return ((lo, some lo), cs)
  | ',' :: '\x7d' :: cs => return ((lo, none), cs)
  | ',' :: cs =>
      let (hi, cs) ← readNumber cs
      match cs with
      | '\x7d' :: cs => if lo ≤ hi then return ((lo, some hi), cs) else none
      | _ => none
  | _ => none

/-- The duplication symbols behind an atom. -/
def readDuplications : ℕ → Re → List Char → Option (Re × List Char)
  | 0, _, _ => none
  | fuel + 1, a, cs =>
      match cs with
      | '*' :: cs => readDuplications fuel (.rep a 0 none) cs
      | '+' :: cs => readDuplications fuel (.rep a 1 none) cs
      | '?' :: cs => readDuplications fuel (.rep a 0 (some 1)) cs
      | '\x7b' :: cs => do
          let ((lo, hi), cs) ← readInterval cs
          readDuplications fuel (.rep a lo hi) cs
      | cs => some (a, cs)

mutual

/-- Alternatives, up to a closing parenthesis or the end. -/
def readAlternatives : ℕ → List Char → Option (Re × List Char)
  | 0, _ => none
  | fuel + 1, cs => do
      let (a, cs) ← readBranch fuel cs
      match cs with
      | '|' :: cs =>
          let (b, cs) ← readAlternatives fuel cs
          return (.alt a b, cs)
      | cs => return (a, cs)

/-- One alternative. -/
def readBranch : ℕ → List Char → Option (Re × List Char)
  | 0, _ => none
  | fuel + 1, cs =>
      match cs with
      | [] => some (.empty, [])
      | '|' :: cs => some (.empty, '|' :: cs)
      | ')' :: cs => some (.empty, ')' :: cs)
      | cs => do
          let (a, cs) ← readAtom fuel cs
          let (a, cs) ← readDuplications fuel a cs
          let (b, cs) ← readBranch fuel cs
          return (.seq a b, cs)

/-- What a duplication symbol applies to. -/
def readAtom : ℕ → List Char → Option (Re × List Char)
  | 0, _ => none
  | fuel + 1, cs =>
      match cs with
      | [] => none
      | '(' :: cs => do
          let (a, cs) ← readAlternatives fuel cs
          match cs with
          | ')' :: cs => return (a, cs)
          | _ => none
      | '[' :: '^' :: cs => do
          let (rs, cs) ← readBracket true cs
          return (.one ⟨true, rs⟩, cs)
      | '[' :: cs => do
          let (rs, cs) ← readBracket true cs
          return (.one ⟨false, rs⟩, cs)
      | '\\' :: c :: cs => some (.char c, cs)
      | '.' :: cs => some (.one ⟨true, []⟩, cs)
      | '^' :: cs => some (.bol, cs)
      | '$' :: cs => some (.eol, cs)
      | c :: cs => if c ∈ ['*', '+', '?', '\x7b', '\\'] then none else some (.char c, cs)

end

/-- `regcomp` with `REG_EXTENDED`. -/
def regcomp (pattern : String) : Option Re := do
  let cs := pattern.toList
  let (re, cs) ← readAlternatives (4 * cs.length + 4) cs
  if cs.isEmpty then return re else none

/-! ## What a pattern takes -/

/-- `R`, `n` times. -/
def Iter {α : Type} (R : α → α → Prop) : ℕ → α → α → Prop
  | 0, u, v => u = v
  | n + 1, u, v => ∃ w, R u w ∧ Iter R n w v

/-- `re` takes the front of `u` and leaves `v`.  `bol` is the length of what is left where `^` is at
its place; with `REG_NOTBOL` it is at its place nowhere. -/
def Takes (bol : Option ℕ) : Re → List UInt8 → List UInt8 → Prop
  | .empty, u, v => u = v
  | .one b, u, v => ∃ c, b.has c = true ∧ u = c :: v
  | .bol, u, v => bol = some u.length ∧ u = v
  | .eol, u, v => u = [] ∧ u = v
  | .seq a b, u, v => ∃ w, Takes bol a u w ∧ Takes bol b w v
  | .alt a b, u, v => Takes bol a u v ∨ Takes bol b u v
  | .rep a lo hi, u, v => ∃ n, lo ≤ n ∧ (∀ h ∈ hi, n ≤ h) ∧ Iter (Takes bol a) n u v

/-- What is left after `n` repetitions. -/
def iterRests {α : Type} (f : α → List α) : ℕ → α → List α
  | 0, u => [u]
  | n + 1, u => (f u).flatMap (iterRests f n)

/-- What is left after at most `n` repetitions. -/
def upToRests {α : Type} (f : α → List α) : ℕ → α → List α
  | 0, u => [u]
  | n + 1, u => u :: (f u).flatMap (upToRests f n)

/-- Everything that `re` can leave of `u`. -/
def rests (bol : Option ℕ) : Re → List UInt8 → List (List UInt8)
  | .empty, u => [u]
  | .one _, [] => []
  | .one b, c :: u => if b.has c then [u] else []
  | .bol, u => if bol = some u.length then [u] else []
  | .eol, u => if u.isEmpty then [u] else []
  | .seq a b, u => (rests bol a u).flatMap (rests bol b)
  | .alt a b, u => rests bol a u ++ rests bol b u
  | .rep a lo none, u => (iterRests (rests bol a) lo u).flatMap (upToRests (rests bol a) u.length)
  | .rep a lo (some hi), u =>
      if lo ≤ hi then (iterRests (rests bol a) lo u).flatMap (upToRests (rests bol a) (hi - lo))
      else []

/-! ## `regexec` -/

/-- `regmatch_t` of the whole match. -/
structure RegMatch where
  so : ℕ
  eo : ℕ
  deriving DecidableEq

/-- Where `^` is at its place in a text. -/
def bolAt (notbol : Bool) (text : List UInt8) : Option ℕ :=
  if notbol then none else some text.length

/-- The least that a match at the front of `u` leaves. -/
def leastRest (bol : Option ℕ) (re : Re) (u : List UInt8) : Option ℕ :=
  ((rests bol re u).map List.length).min?

/-- The first suffix that a match begins at: how much is left there, and how much after it. -/
def search (bol : Option ℕ) (re : Re) (u : List UInt8) : Option (ℕ × ℕ) :=
  match leastRest bol re u with
  | some n => some (u.length, n)
  | none =>
      match u with
      | [] => none
      | _ :: u => search bol re u

/-- `regexec`, with `REG_NOTBOL` or without flags. -/
def regexec (re : Re) (text : List UInt8) (notbol : Bool) : Option RegMatch :=
  (search (bolAt notbol text) re text).map fun r => ⟨text.length - r.1, text.length - r.2⟩

/-- The pattern matches the bytes of `text` from `so` to `eo`. -/
def MatchesAt (re : Re) (text : List UInt8) (notbol : Bool) (so eo : ℕ) : Prop :=
  so ≤ eo ∧ eo ≤ text.length ∧ Takes (bolAt notbol text) re (text.drop so) (text.drop eo)

/-- The leftmost match, and the longest of those. -/
structure LeftmostLongest (re : Re) (text : List UInt8) (notbol : Bool) (m : RegMatch) : Prop where
  isMatch : MatchesAt re text notbol m.so m.eo
  leftmost : ∀ so eo, MatchesAt re text notbol so eo → m.so ≤ so
  longest : ∀ eo, MatchesAt re text notbol m.so eo → eo ≤ m.eo

/-! ## Repetitions -/

section

variable {α : Type} {R : α → α → Prop} {f : α → List α}

lemma iter_add {m n : ℕ} {u v : α} :
    Iter R (m + n) u v ↔ ∃ w, Iter R m u w ∧ Iter R n w v := by
  induction m generalizing u with
  | zero => simp [Iter]
  | succ m ih =>
      rw [Nat.succ_add]
      simp only [Iter, ih]
      constructor
      · rintro ⟨x, hx, w, hm, hn⟩
        exact ⟨w, ⟨x, hx, hm⟩, hn⟩
      · rintro ⟨w, ⟨x, hx, hm⟩, hn⟩
        exact ⟨x, hx, w, hm, hn⟩

lemma mem_iterRests {n : ℕ} {u v : α} :
    v ∈ iterRests f n u ↔ Iter (fun u v => v ∈ f u) n u v := by
  induction n generalizing u with
  | zero => simp [iterRests, Iter, eq_comm]
  | succ n ih => simp only [iterRests, List.mem_flatMap, ih, Iter]

lemma mem_upToRests {n : ℕ} {u v : α} :
    v ∈ upToRests f n u ↔ ∃ m ≤ n, Iter (fun u v => v ∈ f u) m u v := by
  induction n generalizing u with
  | zero => simp [upToRests, Iter, eq_comm]
  | succ n ih =>
      simp only [upToRests, List.mem_cons, List.mem_flatMap, ih]
      constructor
      · rintro (rfl | ⟨w, hw, m, hm, hiter⟩)
        · exact ⟨0, Nat.zero_le _, rfl⟩
        · exact ⟨m + 1, Nat.succ_le_succ hm, w, hw, hiter⟩
      · rintro ⟨_ | m, hm, hiter⟩
        · exact Or.inl (Eq.symm hiter)
        · rcases hiter with ⟨w, hw, hiter⟩
          exact Or.inr ⟨w, hw, m, Nat.le_of_succ_le_succ hm, hiter⟩

/-- Repetitions that take nothing can be left out, and the others take at least one byte each. -/
lemma Iter.bounded {R : List α → List α → Prop} (hR : ∀ u v, R u v → v <:+ u) {n : ℕ}
    {u v : List α} (h : Iter R n u v) : ∃ m, m + v.length ≤ u.length ∧ Iter R m u v := by
  induction n generalizing u with
  | zero =>
      cases h
      exact ⟨0, by omega, rfl⟩
  | succ n ih =>
      rcases h with ⟨w, hw, hrest⟩
      rcases ih hrest with ⟨m, hm, hiter⟩
      have hsuffix := hR u w hw
      by_cases hlen : w.length = u.length
      · rw [hsuffix.eq_of_length hlen] at hiter hm
        exact ⟨m, hm, hiter⟩
      · have hle := hsuffix.length_le
        exact ⟨m + 1, by omega, w, hw, hiter⟩

lemma Iter.suffix {R : List α → List α → Prop} (hR : ∀ u v, R u v → v <:+ u) {n : ℕ}
    {u v : List α} (h : Iter R n u v) : v <:+ u := by
  induction n generalizing u with
  | zero =>
      cases h
      exact List.suffix_refl _
  | succ n ih =>
      rcases h with ⟨w, hw, hrest⟩
      exact (ih hrest).trans (hR u w hw)

end

/-! ## The relation is computed -/

section

variable {bol : Option ℕ} {re : Re} {u v : List UInt8}

/-- What is left is a suffix. -/
lemma Takes.suffix : ∀ {re : Re} {u v : List UInt8}, Takes bol re u v → v <:+ u
  | .empty, u, v, h => by
      cases h
      exact List.suffix_refl _
  | .one b, u, v, h => by
      rcases h with ⟨c, _, rfl⟩
      exact List.suffix_cons c v
  | .bol, u, v, h => by
      cases h.2
      exact List.suffix_refl _
  | .eol, u, v, h => by
      cases h.2
      exact List.suffix_refl _
  | .seq a b, u, v, h => by
      rcases h with ⟨w, ha, hb⟩
      exact hb.suffix.trans ha.suffix
  | .alt a b, u, v, h => h.elim Takes.suffix Takes.suffix
  | .rep a lo hi, u, v, h => by
      rcases h with ⟨n, _, _, hiter⟩
      exact hiter.suffix fun u v => Takes.suffix

/-! ## Small patterns -/

lemma has_range {lo hi c : UInt8} :
    (⟨false, [(lo, hi)]⟩ : Bracket).has c = true ↔ lo.toNat ≤ c.toNat ∧ c.toNat ≤ hi.toNat := by
  simp [Bracket.has, UInt8.le_iff_toNat_le]

lemma takes_alt {a b : Re} :
    Takes bol (.alt a b) u v ↔ Takes bol a u v ∨ Takes bol b u v := Iff.rfl

lemma takes_char {c : Char} : Takes bol (.char c) u v ↔ u = ch c :: v := by
  simp only [Re.char, Takes, has_range]
  constructor
  · rintro ⟨d, ⟨hlo, hhi⟩, rfl⟩
    rw [UInt8.toNat_inj.mp (Nat.le_antisymm hhi hlo)]
  · rintro rfl
    exact ⟨ch c, ⟨Nat.le_refl _, Nat.le_refl _⟩, rfl⟩

/-- A bracket expression, repeated. -/
lemma iter_one {b : Bracket} {n : ℕ} : Iter (Takes bol (.one b)) n u v ↔
    ∃ w, w.length = n ∧ (∀ c ∈ w, b.has c = true) ∧ u = w ++ v := by
  induction n generalizing u with
  | zero =>
      constructor
      · rintro rfl
        exact ⟨[], rfl, by simp, rfl⟩
      · rintro ⟨w, hlen, _, rfl⟩
        rw [List.length_eq_zero_iff.mp hlen]
        rfl
  | succ n ih =>
      simp only [Iter, ih]
      constructor
      · rintro ⟨x, ⟨c, hc, rfl⟩, w, rfl, hw, rfl⟩
        exact ⟨c :: w, rfl, by simpa [hc] using hw, rfl⟩
      · rintro ⟨_ | ⟨c, w⟩, hlen, hw, rfl⟩
        · cases hlen
        · rw [List.forall_mem_cons] at hw
          exact ⟨w ++ v, ⟨c, hw.1, rfl⟩, w, Nat.succ.inj hlen, hw.2, rfl⟩

@[simp] lemma takes_seq_empty : Takes bol (.seq re .empty) u v ↔ Takes bol re u v := by
  simp [Takes]

/-- `a?`. -/
lemma takes_optional : Takes bol (.rep re 0 (some 1)) u v ↔ u = v ∨ Takes bol re u v := by
  constructor
  · rintro ⟨n, _, hn, hiter⟩
    have hle := hn 1 rfl
    rcases n with _ | n
    · exact Or.inl hiter
    · obtain rfl : n = 0 := by omega
      rcases hiter with ⟨w, hw, rfl⟩
      exact Or.inr hw
  · rintro (h | h)
    · exact ⟨0, Nat.le_refl _, by simp, h⟩
    · exact ⟨1, Nat.zero_le _, by simp, v, h, rfl⟩

/-- A group that is repeated an exact number of times. -/
lemma takes_times {n : ℕ} : Takes bol (.rep re n (some n)) u v ↔ Iter (Takes bol re) n u v := by
  constructor
  · rintro ⟨m, hlo, hhi, hiter⟩
    rw [Nat.le_antisymm hlo (hhi n rfl)]
    exact hiter
  · intro h
    exact ⟨n, Nat.le_refl _, by simp, h⟩

/-- **`rests` computes `Takes`.** -/
theorem mem_rests : ∀ {re : Re} {u v : List UInt8}, v ∈ rests bol re u ↔ Takes bol re u v
  | .empty, u, v => by simp [rests, Takes, eq_comm]
  | .one b, [], v => by simp [rests, Takes]
  | .one b, c :: u, v => by
      simp only [rests, Takes, List.cons.injEq]
      constructor
      · intro hv
        split_ifs at hv with hc
        · exact ⟨c, hc, rfl, (List.mem_singleton.mp hv).symm⟩
        · cases hv
      · rintro ⟨_, hc, rfl, rfl⟩
        rw [if_pos hc]
        exact List.mem_singleton_self _
  | .bol, u, v => by
      by_cases hu : bol = some u.length
      · simp [rests, Takes, hu, eq_comm]
      · simp [rests, Takes, hu]
  | .eol, [], v => by simp [rests, Takes, eq_comm]
  | .eol, c :: u, v => by simp [rests, Takes]
  | .seq a b, u, v => by
      simp only [rests, Takes, List.mem_flatMap, @mem_rests a, @mem_rests b]
  | .alt a b, u, v => by
      simp only [rests, Takes, List.mem_append, @mem_rests a, @mem_rests b]
  | .rep a lo none, u, v => by
      simp only [rests, Takes, List.mem_flatMap, mem_iterRests, mem_upToRests, @mem_rests a]
      constructor
      · rintro ⟨w, hlo, m, _, hm⟩
        exact ⟨lo + m, Nat.le_add_right _ _, by simp, iter_add.mpr ⟨w, hlo, hm⟩⟩
      · rintro ⟨n, hn, _, hiter⟩
        rw [← Nat.add_sub_cancel' hn] at hiter
        rcases iter_add.mp hiter with ⟨w, hlo, hrest⟩
        -- the repetitions after the first `lo` can be made few enough
        rcases hrest.bounded fun u v => Takes.suffix with ⟨m, hm, hiter'⟩
        have hw := (hlo.suffix fun u v => Takes.suffix).length_le
        exact ⟨w, hlo, m, by omega, hiter'⟩
  | .rep a lo (some hi), u, v => by
      simp only [rests, Takes, Option.mem_some_iff, forall_eq']
      split_ifs with hle
      · simp only [List.mem_flatMap, mem_iterRests, mem_upToRests, @mem_rests a]
        constructor
        · rintro ⟨w, hlo, m, hm, hrest⟩
          exact ⟨lo + m, Nat.le_add_right _ _, by omega, iter_add.mpr ⟨w, hlo, hrest⟩⟩
        · rintro ⟨n, hn, hnhi, hiter⟩
          rw [← Nat.add_sub_cancel' hn] at hiter
          rcases iter_add.mp hiter with ⟨w, hlo, hrest⟩
          exact ⟨w, hlo, n - lo, by omega, hrest⟩
      · simp only [List.not_mem_nil, false_iff, not_exists, not_and]
        intro n hn hnhi
        omega

/-! ## `regexec` finds the leftmost longest match -/

lemma leastRest_eq_none : leastRest bol re u = none ↔ ∀ v, ¬ Takes bol re u v := by
  rw [leastRest, List.min?_eq_none_iff, List.map_eq_nil_iff, List.eq_nil_iff_forall_not_mem]
  simp only [mem_rests]

lemma leastRest_eq_some {n : ℕ} : leastRest bol re u = some n ↔
    (∃ v, Takes bol re u v ∧ v.length = n) ∧ ∀ v, Takes bol re u v → n ≤ v.length := by
  simp only [leastRest, List.min?_eq_some_iff, List.mem_map, mem_rests, forall_exists_index,
    and_imp, forall_apply_eq_imp_iff₂]

/-- No match begins at any suffix. -/
lemma search_eq_none : ∀ {u : List UInt8}, search bol re u = none →
    ∀ i v, ¬ Takes bol re (u.drop i) v
  | [], h, i, v => by
      rw [search] at h
      split at h
      · cases h
      · rename_i hleast
        rw [List.drop_nil]
        exact leastRest_eq_none.mp hleast v
  | c :: u, h, i, v => by
      rw [search] at h
      split at h
      · cases h
      · rename_i hleast
        cases i with
        | zero => exact leastRest_eq_none.mp hleast v
        | succ i => exact search_eq_none h i v

/-- The first suffix that a match begins at, and the least it leaves. -/
lemma search_eq_some : ∀ {u : List UInt8} {a b : ℕ}, search bol re u = some (a, b) →
    ∃ i, i ≤ u.length ∧ a = u.length - i ∧ (∃ v, Takes bol re (u.drop i) v ∧ v.length = b)
      ∧ (∀ v, Takes bol re (u.drop i) v → b ≤ v.length)
      ∧ ∀ j v, Takes bol re (u.drop j) v → i ≤ j
  | [], a, b, h => by
      rw [search] at h
      split at h
      · rename_i hleast
        cases h
        rcases leastRest_eq_some.mp hleast with ⟨hv, hle⟩
        exact ⟨0, Nat.zero_le _, rfl, hv, hle, fun _ _ _ => Nat.zero_le _⟩
      · cases h
  | c :: u, a, b, h => by
      rw [search] at h
      split at h
      · rename_i hleast
        cases h
        rcases leastRest_eq_some.mp hleast with ⟨hv, hle⟩
        exact ⟨0, Nat.zero_le _, rfl, hv, hle, fun _ _ _ => Nat.zero_le _⟩
      · rename_i hleast
        rcases search_eq_some h with ⟨i, hi, ha, hv, hle, hfirst⟩
        refine ⟨i + 1, Nat.succ_le_succ hi, by simp [ha], hv, hle, fun j v hj => ?_⟩
        cases j with
        | zero => exact absurd hj (leastRest_eq_none.mp hleast v)
        | succ j => exact Nat.succ_le_succ (hfirst j v hj)

end

section

variable {re : Re} {text : List UInt8} {notbol : Bool} {m m' : RegMatch}

/-- What a pattern leaves of a suffix of the text is a suffix of the text. -/
lemma matchesAt_of_takes {so : ℕ} {v : List UInt8} (hso : so ≤ text.length)
    (h : Takes (bolAt notbol text) re (text.drop so) v) :
    MatchesAt re text notbol so (text.length - v.length) := by
  have hsuffix := h.suffix
  have hle := hsuffix.length_le
  rw [List.length_drop] at hle
  have hv : text.drop (text.length - v.length) = v :=
    (List.suffix_iff_eq_drop.mp (hsuffix.trans (List.drop_suffix so text))).symm
  refine ⟨by omega, by omega, ?_⟩
  rw [hv]
  exact h

lemma LeftmostLongest.unique (h : LeftmostLongest re text notbol m)
    (h' : LeftmostLongest re text notbol m') : m = m' := by
  have hso : m.so = m'.so :=
    Nat.le_antisymm (h.leftmost _ _ h'.isMatch) (h'.leftmost _ _ h.isMatch)
  have heo : m.eo = m'.eo := by
    refine Nat.le_antisymm (h'.longest _ ?_) (h.longest _ ?_)
    · rw [← hso]
      exact h.isMatch
    · rw [hso]
      exact h'.isMatch
  cases m
  cases m'
  cases hso
  cases heo
  rfl

lemma regexec_eq_none (h : regexec re text notbol = none) (so eo : ℕ) :
    ¬ MatchesAt re text notbol so eo := by
  rintro ⟨_, _, htakes⟩
  rw [regexec, Option.map_eq_none_iff] at h
  exact search_eq_none h so _ htakes

lemma leftmostLongest_of_regexec (h : regexec re text notbol = some m) :
    LeftmostLongest re text notbol m := by
  rw [regexec, Option.map_eq_some_iff] at h
  rcases h with ⟨⟨a, b⟩, hsearch, rfl⟩
  rcases search_eq_some hsearch with ⟨i, hi, rfl, ⟨v, htakes, rfl⟩, hleast, hfirst⟩
  have hso : text.length - (text.length - i) = i := by omega
  refine ⟨?_, fun so eo hm => ?_, fun eo hm => ?_⟩
  · simp only [hso]
    exact matchesAt_of_takes hi htakes
  · simp only [hso]
    exact hfirst so _ hm.2.2
  · simp only [hso] at hm ⊢
    have hle := hleast _ hm.2.2
    have heo := hm.2.1
    rw [List.length_drop] at hle
    omega

/-- **`regexec`.**  It reports a match exactly when that is the leftmost longest one. -/
theorem regexec_eq_some_iff :
    regexec re text notbol = some m ↔ LeftmostLongest re text notbol m := by
  refine ⟨leftmostLongest_of_regexec, fun h => ?_⟩
  cases hrun : regexec re text notbol with
  | none => exact absurd h.isMatch (regexec_eq_none hrun _ _)
  | some m' => rw [(leftmostLongest_of_regexec hrun).unique h]

/-- The whole text is reported exactly when the pattern takes all of it. -/
theorem regexec_whole_iff :
    regexec re text notbol = some ⟨0, text.length⟩ ↔ Takes (bolAt notbol text) re text [] := by
  rw [regexec_eq_some_iff]
  constructor
  · intro h
    have htakes := h.isMatch.2.2
    rwa [List.drop_zero, List.drop_length] at htakes
  · intro h
    refine ⟨⟨Nat.zero_le _, Nat.le_refl _, ?_⟩, fun so eo _ => Nat.zero_le _, fun eo hm => hm.2.1⟩
    rwa [List.drop_zero, List.drop_length]

end

end CExercises.Ere
