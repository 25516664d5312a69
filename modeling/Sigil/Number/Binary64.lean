/-!
# Numbers

Binary floating point numbers of 64 bits: integers of at most 53 bits times a power of two, the two
infinities, and one value that is not a number. A finite number is kept in the form with the largest
mantissa, so equal magnitudes have equal forms.
-/

namespace Sigil

/-- A binary floating point number of 64 bits. -/
inductive Number where
  | notANumber
  | infinite (negative : Bool)
  /-- The number `mantissa * 2 ^ exponent`, or its negation. -/
  | finite (negative : Bool) (mantissa : Nat) (exponent : Int)
  deriving DecidableEq, Repr

namespace Number

/-- The least exponent of a finite number. -/
def minExponent : Int := -1074

/-- The greatest exponent of a finite number. -/
def maxExponent : Int := 971

/-- The whole part of `m * 2 ^ e`. -/
def whole (m : Nat) (e : Int) : Nat := m * Nat.pow 2 e.toNat / Nat.pow 2 (-e).toNat

/-- The quotient rounded to the nearest integer, a tie to the even one. -/
def roundQuotient (num den : Nat) : Nat :=
  let q := num / den
  let twice := 2 * (num % den)
  if twice < den then q else if den < twice then q + 1 else q + q % 2

/-- The exponent `e` with `2 ^ e ≤ num / den < 2 ^ (e + 1)`, for positive `num` and `den`. -/
def log2Quotient (num den : Nat) : Int :=
  let e : Int := (num.log2 : Int) - den.log2
  if num * Nat.pow 2 (-e).toNat < den * Nat.pow 2 e.toNat then e - 1 else e

/-- The number nearest to `num / den`, or to its negation. A tie goes to the even mantissa, and what
exceeds every finite number by half a step becomes infinite. -/
def ofRatio (negative : Bool) (num den : Nat) : Number :=
  if num = 0 then finite negative 0 minExponent
  else
    let e := max (log2Quotient num den - 52) minExponent
    let m := roundQuotient (num * Nat.pow 2 (-e).toNat) (den * Nat.pow 2 e.toNat)
    let (m, e) := if m = Nat.pow 2 53 then (Nat.pow 2 52, e + 1) else (m, e)
    if maxExponent < e then infinite negative else finite negative m e

/-- The number nearest to a natural number. -/
def ofNat (n : Nat) : Number := ofRatio false n 1

/-- The number nearest to `digits * 10 ^ (-places)`, or to its negation. -/
def ofDecimal (negative : Bool) (digits places : Nat) : Number :=
  ofRatio negative digits (Nat.pow 10 places)

end Number

end Sigil
