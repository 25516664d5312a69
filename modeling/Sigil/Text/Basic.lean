/-!
# Text as a sequence of 16-bit code units

Positions in a text count 16-bit code units. A code point up to `0xFFFF` is one unit, and a larger
one is a pair of halves: a leading half followed by a trailing half. A half that stands alone counts
as a code point of its own, so every list of units is a text, and `Text.codePoints` is total.
-/

namespace Sigil

/-- A 16-bit unit of text. -/
abbrev CodeUnit := UInt16

/-- A text is a list of code units. Its length is the number of units. -/
abbrev Text := List CodeUnit

namespace CodeUnit

/-- The unit is the first half of a pair. -/
def isLeading (u : CodeUnit) : Bool := 0xD800 ≤ u && u < 0xDC00

/-- The unit is the second half of a pair. -/
def isTrailing (u : CodeUnit) : Bool := 0xDC00 ≤ u && u < 0xE000

/-- The code point spelled by a leading and a trailing half. -/
def pairPoint (u v : CodeUnit) : Nat := 0x10000 + (u.toNat - 0xD800) * 0x400 + (v.toNat - 0xDC00)

/-- The unit of a character below `0x10000`. -/
def ofChar (c : Char) : CodeUnit := UInt16.ofNat c.toNat

abbrev newline : CodeUnit := 0x0A
abbrev space : CodeUnit := 0x20
abbrev dollar : CodeUnit := 0x24
abbrev leftParen : CodeUnit := 0x28
abbrev rightParen : CodeUnit := 0x29
abbrev comma : CodeUnit := 0x2C
abbrev backslash : CodeUnit := 0x5C
abbrev leftBrace : CodeUnit := 0x7B
abbrev rightBrace : CodeUnit := 0x7D

/-- An ASCII decimal digit. -/
def isDigit (u : CodeUnit) : Bool := 0x30 ≤ u && u ≤ 0x39

theorem isLeading_iff {u : CodeUnit} :
    u.isLeading = true ↔ 0xD800 ≤ u.toNat ∧ u.toNat < 0xDC00 := by
  simp only [isLeading, Bool.and_eq_true, decide_eq_true_eq, UInt16.le_iff_toNat_le,
    UInt16.lt_iff_toNat_lt, UInt16.reduceToNat]

theorem isTrailing_iff {u : CodeUnit} :
    u.isTrailing = true ↔ 0xDC00 ≤ u.toNat ∧ u.toNat < 0xE000 := by
  simp only [isTrailing, Bool.and_eq_true, decide_eq_true_eq, UInt16.le_iff_toNat_le,
    UInt16.lt_iff_toNat_lt, UInt16.reduceToNat]

end CodeUnit

namespace Text

open CodeUnit

/-- The units that spell one code point. -/
def ofCodePoint (c : Nat) : Text :=
  if c < 0x10000 then [UInt16.ofNat c]
  else
    [UInt16.ofNat (0xD800 + (c - 0x10000) / 0x400),
      UInt16.ofNat (0xDC00 + (c - 0x10000) % 0x400)]

/-- The units of a string. -/
def ofString (s : String) : Text := s.toList.flatMap fun c => ofCodePoint c.toNat

instance : Coe String Text := ⟨ofString⟩

/-- The code points of a text, in order. A half that stands alone is its own code point. -/
def codePoints : Text → List Nat
  | [] => []
  | [u] => [u.toNat]
  | u :: v :: rest =>
    if u.isLeading && v.isTrailing then u.pairPoint v :: codePoints rest
    else u.toNat :: codePoints (v :: rest)

/-- The text spelled by a list of code points. -/
def ofCodePoints (points : List Nat) : Text := points.flatMap ofCodePoint

/-- The text cut into the spellings of its code points. -/
def characters (t : Text) : List Text := t.codePoints.map ofCodePoint

/-- The number of code points. -/
def width (t : Text) : Nat := t.codePoints.length

/-- The text read as a string. A half that stands alone has no character and becomes `U+FFFD`. -/
def toString (t : Text) : String :=
  String.ofList <| t.codePoints.map fun c => if c.isValidChar then Char.ofNat c else '\uFFFD'

/-- No half stands alone. -/
def wellFormed : Text → Bool
  | [] => true
  | [u] => !(u.isLeading || u.isTrailing)
  | u :: v :: rest =>
    if u.isLeading then v.isTrailing && wellFormed rest
    else !u.isTrailing && wellFormed (v :: rest)

/-- `n` spaces. -/
def spaces (n : Nat) : Text := List.replicate n space

/-- Add spaces behind the text until `length` has grown to `n`. -/
def padTo (n length : Nat) (t : Text) : Text := t ++ spaces (n - length)

/-- The texts one after another, with `separator` between neighbours. -/
def join (separator : Text) (ts : List Text) : Text := separator.intercalate ts

/-- The text begins with `start`. -/
def startsWith (start t : Text) : Bool := start.isPrefixOf t

/-- The text with every code point replaced by a text. -/
def mapPoints (f : Nat → Text) (t : Text) : Text := t.codePoints.flatMap f

/-! ## Cutting into code points loses nothing -/

theorem ofCodePoint_toNat (u : CodeUnit) : ofCodePoint u.toNat = [u] := by
  have h : u.toNat < 0x10000 := u.toNat_lt
  rw [ofCodePoint, if_pos h, UInt16.ofNat_toNat]

theorem ofCodePoint_pairPoint {u v : CodeUnit} (hu : u.isLeading = true)
    (hv : v.isTrailing = true) : ofCodePoint (u.pairPoint v) = [u, v] := by
  rw [isLeading_iff] at hu
  rw [isTrailing_iff] at hv
  have key : ∀ a b : Nat, 0xD800 ≤ a ∧ a < 0xDC00 → 0xDC00 ≤ b ∧ b < 0xE000 →
      ∃ c, 0x10000 + (a - 0xD800) * 0x400 + (b - 0xDC00) = 0x10000 + c ∧
        0xD800 + c / 0x400 = a ∧ 0xDC00 + c % 0x400 = b :=
    fun a b ha hb => ⟨(a - 0xD800) * 0x400 + (b - 0xDC00), by omega, by omega, by omega⟩
  obtain ⟨c, hc, hhigh, hlow⟩ := key u.toNat v.toNat hu hv
  have hpoint : u.pairPoint v = 0x10000 + c := hc
  rw [hpoint, ofCodePoint, if_neg (by omega), Nat.add_sub_cancel_left, hhigh, hlow,
    UInt16.ofNat_toNat, UInt16.ofNat_toNat]

/-- Spelling the code points of a text gives the text back. -/
theorem ofCodePoints_codePoints (t : Text) : ofCodePoints t.codePoints = t := by
  fun_induction codePoints t with
  | case1 => rfl
  | case2 u => simp [ofCodePoints, ofCodePoint_toNat]
  | case3 u v rest h ih =>
    rw [Bool.and_eq_true] at h
    simp only [ofCodePoints, List.flatMap_cons, ofCodePoint_pairPoint h.1 h.2] at ih ⊢
    rw [ih]; rfl
  | case4 u v rest _ ih =>
    simp only [ofCodePoints, List.flatMap_cons, ofCodePoint_toNat] at ih ⊢
    rw [ih]; rfl

/-- The characters of a text, one after another, are the text. -/
theorem flatten_characters (t : Text) : t.characters.flatten = t := by
  rw [characters, ← List.flatMap_def]
  exact ofCodePoints_codePoints t

end Text

end Sigil
