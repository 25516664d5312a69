import Sigil.Glossary

/-!
# Symbols of physics

The group `phy` of physical constants. The Planck constants have characters of their own, which
plain text and LaTeX spell differently.
-/

namespace Sigil.Symbols

/-- The physical constants. -/
def physics : Glossary where
  name := "phy"
  description := "physics symbols"
  expressions := Mapping.ofStrings [
    ("c", "c"), ("G", "G"), ("k_B", "k$sub(B)"), ("e_0", "$greek(epsilon)$sub(0)"), ("h", "ℎ"),
    ("h-bar", "ℏ"), ("l_P", "l$sub(p)"), ("t_P", "t$sub(p)"), ("m_P", "m$sub(p)"),
    ("q_P", "q$sub(p)"), ("T_P", "T$sub(p)"), ("alpha", "$greek(alpha)")]
  spellings
    | .plain => Mapping.ofStrings [("h", "h"), ("h-bar", "h-bar")]
    | .latex => Mapping.ofStrings [("h", "h"), ("h-bar", "\\hbar")]
    | _ => {}

end Sigil.Symbols
