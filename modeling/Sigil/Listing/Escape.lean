import Sigil.Text.Numeral

/-!
# Codes in ASCII

A code is spelled in printable ASCII by writing every other code point as `\x`, `\u` or `\U` with
two, four or eight hexadecimal digits, whichever is the first that holds it. Spellings of codes
without a backslash can be read back: these escapes stand for their code points, and everything else
stands for itself.
-/

namespace Sigil.Listing

open Text

/-- The spelling of a code point. -/
def escapePoint (c : Nat) : Text :=
  if 0x20 ≤ c ∧ c < 0x7F then ofCodePoint c
  else if c ≤ 0xFF then "\\x" ++ paddedHex 2 c
  else if c ≤ 0xFFFF then "\\u" ++ paddedHex 4 c
  else "\\U" ++ paddedHex 8 c

/-- The spelling of a code. -/
def escape (t : Text) : Text := t.mapPoints escapePoint

/-! ## Reading back -/

/-- The value of a digit in base sixteen, in either case. -/
def hexDigit? (u : CodeUnit) : Option Nat :=
  if u.isDigit then some (u.toNat - 0x30)
  else if 0x61 ≤ u ∧ u ≤ 0x66 then some (u.toNat - 0x61 + 10)
  else if 0x41 ≤ u ∧ u ≤ 0x46 then some (u.toNat - 0x41 + 10)
  else none

/-- The number that digits in base sixteen spell behind those of `n`. -/
def readHexFrom? (n : Nat) : Text → Option Nat
  | [] => some n
  | u :: digits =>
    match hexDigit? u with
    | some d => readHexFrom? (16 * n + d) digits
    | none => none

/-- The number of digits behind a backslash and the given letter. -/
def digitsBehind? (letter : CodeUnit) : Option Nat :=
  if letter = CodeUnit.ofChar 'x' then some 2
  else if letter = CodeUnit.ofChar 'u' then some 4
  else if letter = CodeUnit.ofChar 'U' then some 8
  else none

/-- The code point of the escape that a backslash begins in front of the text, and the number of
units of the text that belong to it. -/
def escaped? : Text → Option (Nat × Nat)
  | [] => none
  | letter :: digits =>
    match digitsBehind? letter with
    | some n =>
      if n ≤ digits.length then (readHexFrom? 0 (digits.take n)).map (·, n + 1) else none
    | none => none

/-- The code that a spelling stands for. What is no escape stands for itself. -/
def unescape : Text → Text
  | [] => []
  | u :: rest =>
    match if u = CodeUnit.backslash then escaped? rest else none with
    | some (c, length) => ofCodePoint c ++ unescape (rest.drop length)
    | none => u :: unescape rest
termination_by t => t.length
decreasing_by all_goals simp only [List.length_cons, List.length_drop]; omega

end Sigil.Listing
