import Sigil.Registry

/-!
# Plain text symbols

Words and ASCII signs for the mathematical symbols that ASCII cannot spell.
-/

namespace Sigil.Symbols.Plain

/-- ASCII wording by name. -/
def math : Mapping := Mapping.ofStrings [
  ("frac", "/"), ("obelus", "/"), ("inf", "inf"), ("deg", "degrees"), ("sum", "sum"),
  ("int", "integral"), ("null", "null"), ("hat", "-hat"), ("twiddle", "-twiddle"), ("dot", "-dot"),
  ("dotdot", "-dotdot"), ("bar", "-bar"), ("bbar", "-bar")]

end Sigil.Symbols.Plain
