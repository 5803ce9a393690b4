import CExercises.Core.Memory

/-!
# C strings

A C string is the sequence of bytes before the terminator, and therefore contains no zero byte.
Carrying that fact in the type is what lets `strcmp`, which stops at the terminator, decide
equality.
-/

namespace CExercises

/-- A character constant. -/
def ch (c : Char) : UInt8 := c.toUInt8

/-- The bytes of a `char *` up to its terminator. -/
structure CStr where
  bytes : List UInt8
  nulFree : ∀ b ∈ bytes, b ≠ 0
  deriving DecidableEq

namespace CStr

lemma ext_bytes {s t : CStr} (h : s.bytes = t.bytes) : s = t := by
  cases s
  cases t
  cases h
  rfl

lemma nulFree_nil : ∀ b ∈ ([] : List UInt8), b ≠ 0 := fun _ hb => absurd hb List.not_mem_nil

/-- The empty string. -/
def empty : CStr := ⟨[], nulFree_nil⟩

/-- One string after another. -/
def append (s t : CStr) : CStr where
  bytes := s.bytes ++ t.bytes
  nulFree := by
    intro b hb
    rcases List.mem_append.mp hb with hb | hb
    · exact s.nulFree b hb
    · exact t.nulFree b hb

@[simp] lemma empty_bytes : empty.bytes = [] := rfl

@[simp] lemma append_bytes (s t : CStr) : (s.append t).bytes = s.bytes ++ t.bytes := rfl

/-- `strlen`. -/
def strlen (s : CStr) : ℕ := s.bytes.length

@[simp] lemma strlen_empty : empty.strlen = 0 := rfl

@[simp] lemma strlen_append (s t : CStr) : (s.append t).strlen = s.strlen + t.strlen :=
  List.length_append

/-- `s[i]`: a byte of the string, or its terminator. -/
def charAt (s : CStr) (i : ℕ) : Except Stop UInt8 :=
  if i ≤ s.bytes.length then .ok (s.bytes.getD i 0) else .error .outOfBounds

/-- Reading where a suffix of the string begins. -/
lemma charAt_append {s : CStr} {xs ys : List UInt8} (h : s.bytes = xs ++ ys) :
    s.charAt xs.length = .ok (ys.headD 0) := by
  have hle : xs.length ≤ s.bytes.length := by simp [h]
  rw [charAt, if_pos hle, h]
  cases ys <;> simp [List.getD]

/-- The first difference of two byte sequences, read as `unsigned char`; past the end of a string
stands its terminator. -/
def firstDifference : List UInt8 → List UInt8 → ℤ
  | [], [] => 0
  | [], y :: _ => 0 - (y.toNat : ℤ)
  | x :: _, [] => x.toNat
  | x :: xs, y :: ys => if x = y then firstDifference xs ys else (x.toNat : ℤ) - y.toNat

/-- `strcmp`. -/
def strcmp (s t : CStr) : ℤ := firstDifference s.bytes t.bytes

lemma firstDifference_eq_zero : ∀ xs ys : List UInt8, (∀ b ∈ xs, b ≠ 0) → (∀ b ∈ ys, b ≠ 0) →
    (firstDifference xs ys = 0 ↔ xs = ys)
  | [], [], _, _ => by simp [firstDifference]
  | [], y :: ys, _, hy => by
      have hy0 : y.toNat ≠ 0 := fun h => hy y List.mem_cons_self (UInt8.toNat_inj.mp h)
      simp only [firstDifference, List.nil_eq, List.cons_ne_nil, iff_false]
      omega
  | x :: xs, [], hx, _ => by
      have hx0 : x.toNat ≠ 0 := fun h => hx x List.mem_cons_self (UInt8.toNat_inj.mp h)
      simp only [firstDifference, List.cons_ne_nil, iff_false]
      omega
  | x :: xs, y :: ys, hx, hy => by
      have ih := firstDifference_eq_zero xs ys
        (fun b hb => hx b (List.mem_cons_of_mem _ hb))
        (fun b hb => hy b (List.mem_cons_of_mem _ hb))
      simp only [firstDifference]
      split_ifs with h
      · simp [ih, h]
      · have hne : x.toNat ≠ y.toNat := fun he => h (UInt8.toNat_inj.mp he)
        simp only [List.cons.injEq, h, false_and, iff_false]
        omega

/-- `strcmp` answers zero exactly on equal strings. -/
theorem strcmp_eq_zero_iff (s t : CStr) : strcmp s t = 0 ↔ s = t := by
  rw [strcmp, firstDifference_eq_zero _ _ s.nulFree t.nulFree]
  constructor
  · exact ext_bytes
  · intro h
    rw [h]

end CStr

end CExercises
