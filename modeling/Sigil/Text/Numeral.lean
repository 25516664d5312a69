import Sigil.Text.Basic

/-!
# Numerals

Natural numbers written in base ten and base sixteen, with lower case digits and no leading zeros
unless padded.
-/

namespace Sigil.Text

/-- The number in base ten. -/
def decimal (n : Nat) : Text := (Nat.toDigits 10 n).map CodeUnit.ofChar

/-- The number in base sixteen. -/
def hex (n : Nat) : Text := (Nat.toDigits 16 n).map CodeUnit.ofChar

/-- The number in base sixteen, with zeros in front up to `places` digits. -/
def paddedHex (places n : Nat) : Text :=
  List.replicate (places - (hex n).length) (CodeUnit.ofChar '0') ++ hex n

/-- An integer in base sixteen: a minus sign in front of the digits of a negative one. -/
def signedHex (n : Int) : Text := (if n < 0 then "-" else "" : Text) ++ hex n.natAbs

/-- The value of a text of decimal digits. -/
def decimalValue (t : Text) : Nat := t.foldl (fun n u => 10 * n + (u.toNat - 0x30)) 0

/-- The value of a digit in base sixteen, in lower case. -/
def hexDigitValue (u : CodeUnit) : Nat :=
  if u.isDigit then u.toNat - 0x30 else u.toNat - 0x61 + 10

/-- The value of a text of digits in base sixteen, in lower case. -/
def hexValue (t : Text) : Nat := t.foldl (fun n u => 16 * n + hexDigitValue u) 0

end Sigil.Text
