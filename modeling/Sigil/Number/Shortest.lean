import Sigil.Number.Binary64

/-!
# The fewest digits that identify a number

The reals that round to a number form an interval around it, from halfway to its lower neighbour to
halfway to its upper one, with the ends exactly when the mantissa is even. Among the decimals in the
interval with the fewest digits, the one nearest to the number is chosen, and of two equally near
ones the even one.
-/

namespace Sigil.Number

/-- The decimal `digits * 10 ^ exponent`. -/
structure Decimal where
  digits : Nat
  exponent : Int
  deriving DecidableEq, Repr

/-- Compare `a * 10 ^ i` with `b * 2 ^ j`. -/
def compareScaled (a : Nat) (i : Int) (b : Nat) (j : Int) : Ordering :=
  compare (a * Nat.pow 10 i.toNat * Nat.pow 2 (-j).toNat)
    (b * Nat.pow 2 j.toNat * Nat.pow 10 (-i).toNat)

/-- The decimal rounds to `m * 2 ^ q`. Just above a power of two the lower neighbour is half as far
away as the upper one. -/
def identifies (m : Nat) (q : Int) (d : Decimal) : Bool :=
  let low := if m = Nat.pow 2 52 ∧ minExponent < q then 4 * m - 1 else 4 * m - 2
  let high := 4 * m + 2
  let closed := m % 2 == 0
  let fromLow := compareScaled d.digits d.exponent low (q - 2)
  let fromHigh := compareScaled d.digits d.exponent high (q - 2)
  (fromLow == .gt || closed && fromLow == .eq) && (fromHigh == .lt || closed && fromHigh == .eq)

/-- The number of decimal digits. -/
def digitCount (n : Nat) : Nat := (Nat.toDigits 10 n).length

/-- The least `k` with `m * 2 ^ q < 10 ^ k`, for positive `m`. -/
def magnitude (m : Nat) (q : Int) : Int :=
  let num := m * Nat.pow 2 q.toNat
  let den := Nat.pow 2 (-q).toNat
  if den ≤ num then digitCount (num / den) else 1 - digitCount ((den - 1) / num)

/-- The better of the two decimals with last digit at `10 ^ g` that enclose `m * 2 ^ q`, if one of
them identifies it. -/
def onGrid (m : Nat) (q g : Int) : Option Decimal :=
  let below := (m * Nat.pow 2 q.toNat * Nat.pow 10 (-g).toNat) /
    (Nat.pow 2 (-q).toNat * Nat.pow 10 g.toNat)
  let down : Decimal := ⟨below, g⟩
  let up : Decimal := ⟨below + 1, g⟩
  match identifies m q down, identifies m q up with
  | true, true =>
    match compareScaled (2 * below + 1) g (2 * m) q with
    | .lt => some up
    | .gt => some down
    | .eq => some (if below % 2 = 0 then down else up)
  | true, false => some down
  | false, true => some up
  | false, false => none

/-- The decimal without trailing zeros among its digits; `fuel` bounds their number. -/
def Decimal.strip : Nat → Decimal → Decimal
  | 0, d => d
  | fuel + 1, d =>
    if d.digits ≠ 0 ∧ d.digits % 10 = 0 then strip fuel ⟨d.digits / 10, d.exponent + 1⟩ else d

/-- The decimal with the fewest digits that identifies `m * 2 ^ q`, for positive `m`. -/
def shortest (m : Nat) (q : Int) : Decimal :=
  let k := magnitude m q
  let found := (List.range 17).findSome? fun (n : Nat) => onGrid m q (k - (n + 1))
  let exact : Decimal := ⟨m * Nat.pow 2 q.toNat * Nat.pow 5 (-q).toNat, min q 0⟩
  let chosen := found.getD exact
  chosen.strip (digitCount chosen.digits)

end Sigil.Number
