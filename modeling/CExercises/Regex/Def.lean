import CExercises.Core.CInt
import CExercises.Core.CString
import CExercises.Core.Ere

/-!
# Scanning and checking with regular expressions

From `regex_demo.c`: the scan loop of section 5, which is offered there and in `regex.md` as the
pattern for finding all matches, and `check` of section 6 with the IPv4 pattern.

The loop is written against any matcher in place of `regexec`, so that it can be judged apart from
the pattern it happens to be used with; `Matcher.ofRe` is `regexec` itself.  A cursor is an offset
into the text.  The matcher reads from the cursor to the terminator, so calling it behind the
terminator is `.outOfBounds`.  The loop has no bound of its own and carries a step budget.
-/

namespace CExercises.Regex

open Ere

def REG_NOTBOL : ℤ := 1

/-- A text whose offsets fit the `int` that `regoff_t` is. -/
def Measurable (text : CStr) : Prop := (text.strlen : ℤ) ≤ INT_MAX

/-- Something in place of `regexec` on the text from a cursor on.  What it reports lies between the
cursor and the end of the text.  Nothing else bounds the offsets here; `regexec` itself can report
all of them only in a text that it can measure. -/
structure Matcher (text : CStr) where
  exec : ℕ → ℤ → Option RegMatch
  inside : ∀ cursor eflags m, cursor ≤ text.strlen → exec cursor eflags = some m →
    m.so ≤ m.eo ∧ m.eo ≤ text.strlen - cursor

/-- `regexec` with a compiled pattern. -/
def Matcher.ofRe (re : Re) (text : CStr) : Matcher text where
  exec cursor eflags := regexec re (text.bytes.drop cursor) (eflags = REG_NOTBOL)
  inside cursor eflags m _ h := by
    have hmatch := (regexec_eq_some_iff.mp h).isMatch
    have hle := hmatch.2.1
    rw [List.length_drop] at hle
    exact ⟨hmatch.1, hle⟩

section

variable {text : CStr}

/-- `regexec(&re, cursor, 1, &m, eflags)`. -/
def Matcher.call (re : Matcher text) (cursor : ℕ) (eflags : ℤ) : Except Stop (Option RegMatch) :=
  if cursor ≤ text.strlen then .ok (re.exec cursor eflags) else .error .outOfBounds

/-- `cursor += m.rm_eo;` and `if (m.rm_eo == m.rm_so) { cursor++; }`. -/
def advance (cursor : ℕ) (m : RegMatch) : ℕ :=
  if m.eo = m.so then cursor + m.eo + 1 else cursor + m.eo

/-- The loop of `section5_scan`.  `found` are the matches printed so far, as offsets into the
text. -/
def scanFrom (re : Matcher text) : ℕ → ℕ → ℤ → List RegMatch → Except Stop (List RegMatch)
  | 0, _, _, _ => .error .diverges
  | fuel + 1, cursor, eflags, found => do
      match ← re.call cursor eflags with
      | none => return found
      | some m =>
          scanFrom re fuel (advance cursor m) REG_NOTBOL
            (found ++ [⟨cursor + m.so, cursor + m.eo⟩])

/-- `section5_scan` on a text. -/
def scan (re : Matcher text) (fuel : ℕ) : Except Stop (List RegMatch) := scanFrom re fuel 0 0 []

end

/-- `printf("%.*s", (int)(m.rm_eo - m.rm_so), cursor + m.rm_so)`, by the offsets into the text.  A
negative precision is taken as if it were left out. -/
def printMatch (text : CStr) (m : RegMatch) : List UInt8 :=
  let precision := toInt ((m.eo : ℤ) - m.so)
  if precision < 0 then text.bytes.drop m.so
  else (text.bytes.drop m.so).take precision.toNat

/-- The pattern of `section5_scan`. -/
def capitalisedPattern : String := "[A-Z][a-z]+"

/-- `compile`, with the message of `regerror` left out. -/
def compile (pattern : String) : Except Stop Re :=
  match regcomp pattern with
  | some re => .ok re
  | none => .error (.exit "regcomp")

/-- `full` of `check`: the match begins at the start and ends at the terminator, whose offset is
converted to the `int` that `regoff_t` is. -/
def full (re : Re) (input : CStr) : Bool :=
  match regexec re input.bytes false with
  | none => false
  | some m => m.so = 0 ∧ (m.eo : ℤ) = toInt input.strlen

/-- `check`: the verdict it prints. -/
def check (re : Re) (input : CStr) : String := if full re input then "valid" else "INVALID"

def ipv4Pattern : String :=
  "^((25[0-5]|2[0-4][0-9]|[01]?[0-9][0-9]?)\\.){3}" ++
  "(25[0-5]|2[0-4][0-9]|[01]?[0-9][0-9]?)$"

/-- The first block of `section6_patterns`, for one input. -/
def checkIpv4 (input : CStr) : Except Stop String := do
  let ipv4 ← compile ipv4Pattern
  return check ipv4 input

end CExercises.Regex
