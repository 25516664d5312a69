import Sigil.Fault
import Sigil.Number.Binary64

/-!
# Layout of a listing

A listing shows pairs of a key and a code, several pairs to a row. The layout fixes how many, and
how far apart, from the width of the page.
-/

namespace Sigil.Listing

/-- The width of a page. -/
inductive Width where
  /-- At least `n` and less than `n + 1` columns. A part of a column holds nothing. -/
  | columns (n : Nat)
  | unbounded
  /-- Less than nothing, by this many times the least positive number. -/
  | belowZero (steps : Nat)
  | undefined
  deriving DecidableEq, Repr

/-- The width of eighty columns. -/
def Width.standard : Width := .columns 80

/-- The width that a number of columns means. -/
def Width.ofNumber : Number → Width
  | .notANumber => undefined
  | .infinite false => unbounded
  | .infinite true => undefined
  | .finite negative m e =>
    if negative ∧ m ≠ 0 then belowZero (m * Nat.pow 2 (e - Number.minExponent).toNat)
    else columns (Number.whole m e)

/-- The columns on which pairs of width `pair` are laid out, without a bound if `none`. A width
below zero counts as zero if its share for each column of a pair and two blanks rounds to zero. -/
def Width.room (w : Width) (pair : Nat) : Except Fault (Option Nat) :=
  match w with
  | columns n => .ok (some n)
  | unbounded => .ok none
  | belowZero steps => if 2 * steps ≤ pair + 2 then .ok (some 0) else .error .unusableWidth
  | undefined => .error .unusableWidth

/-- How pairs are arranged: `columns` to a row, with `gap` blanks between them. Keys and codes are
filled up to common widths, with one blank between them. -/
structure Layout where
  columns : Nat
  keyWidth : Nat
  codeWidth : Nat
  gap : Nat
  deriving DecidableEq, Repr

/-- The greatest number of pairs in a row. -/
def maxColumns : Nat := 16

/-- The greatest number of blanks between pairs. -/
def maxGap : Nat := 6

/-- The greatest tidy number that is at most `n`. The tidy numbers are 0 to 3 and the multiples of
four up to sixteen. -/
def tidy (n : Nat) : Nat := if n < 4 then n else min (n / 4 * 4) maxColumns

namespace Layout

/-- The width of a key, a blank and a code. -/
def pair (l : Layout) : Nat := l.keyWidth + 1 + l.codeWidth

/-- Lay a number of entries out. Pairs take two blanks more than their width when they are counted
into the room; what then remains goes between them. A page too narrow for one pair gets one. -/
def ofRoom (room : Option Nat) (keyWidth codeWidth entries : Nat) : Layout :=
  let pair := keyWidth + 1 + codeWidth
  match room with
  | some width =>
    let fitting := width / (pair + 2)
    if fitting = 0 then ⟨1, keyWidth, codeWidth, 1⟩
    else
      let n := tidy (min fitting (max 1 entries))
      ⟨n, keyWidth, codeWidth, if n = 1 then 2 else min ((width - n * pair) / (n - 1)) maxGap⟩
  | none =>
    let n := tidy (max 1 entries)
    ⟨n, keyWidth, codeWidth, if n = 1 then 2 else maxGap⟩

end Layout

end Sigil.Listing
