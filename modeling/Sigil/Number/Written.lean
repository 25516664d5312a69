import Sigil.Number.Shortest
import Sigil.Text.Numeral

/-!
# Numbers as text

A number is written with the fewest digits that identify it: positionally if its first digit stands
between the sixth place behind the point and the twenty-first place in front of it, and otherwise
with a signed exponent. Zero has no sign.
-/

namespace Sigil.Number

open Text (decimal)

/-- `n` zeros. -/
def zeros (n : Nat) : Text := List.replicate n (CodeUnit.ofChar '0')

/-- The text of a decimal whose digits do not end in zero. -/
def Decimal.text (d : Decimal) : Text :=
  let digits := decimal d.digits
  let count := digits.length
  let point : Int := count + d.exponent
  if count ≤ point ∧ point ≤ 21 then digits ++ zeros (point - count).toNat
  else if 0 < point ∧ point ≤ 21 then
    digits.take point.toNat ++ "." ++ digits.drop point.toNat
  else if -6 < point ∧ point ≤ 0 then "0." ++ zeros (-point).toNat ++ digits
  else
    let exponent := point - 1
    let mantissa : Text := if count = 1 then digits else digits.take 1 ++ "." ++ digits.drop 1
    let sign : Text := if exponent < 0 then "-" else "+"
    mantissa ++ "e" ++ sign ++ decimal exponent.natAbs

/-- The text of a number. -/
def text : Number → Text
  | notANumber => "NaN"
  | infinite negative => if negative then "-Infinity" else "Infinity"
  | finite negative m q =>
    if m = 0 then "0" else (if negative then "-" else "" : Text) ++ (shortest m q).text

end Sigil.Number
