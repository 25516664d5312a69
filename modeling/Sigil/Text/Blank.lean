import Sigil.Text.Basic

/-!
# Blanks

Blank units are the white space and line ends of Unicode together with the byte order mark. All of
them are single units. `Text.trim` removes them at both ends of a text.
-/

namespace Sigil

/-- White space, a line end or the byte order mark. -/
def CodeUnit.isBlank (u : CodeUnit) : Bool :=
  (0x09 ≤ u && u ≤ 0x0D) || u == 0x20 || u == 0xA0 || u == 0x1680 || (0x2000 ≤ u && u ≤ 0x200A) ||
    u == 0x2028 || u == 0x2029 || u == 0x202F || u == 0x205F || u == 0x3000 || u == 0xFEFF

namespace Text

/-- The text without the blanks it begins with. -/
def trimStart (t : Text) : Text := t.dropWhile CodeUnit.isBlank

/-- The text without the blanks it ends with. -/
def trimEnd (t : Text) : Text := (t.reverse.dropWhile CodeUnit.isBlank).reverse

/-- The text without the blanks at its two ends. -/
def trim (t : Text) : Text := t.trimStart.trimEnd

end Text

end Sigil
