import Sigil.Registry

/-!
# LaTeX symbols

The macros that stand for each key, and the accent macros.
-/

namespace Sigil.Symbols.Latex

open Text (ofString)

/-- Greek letters by name. Letters that look like Latin ones have no macro. -/
def greek : Mapping := Mapping.ofStrings [
  ("alpha", "\\alpha"), ("beta", "\\beta"), ("gamma", "\\gamma"), ("delta", "\\delta"),
  ("epsilon", "\\epsilon"), ("zeta", "\\zeta"), ("eta", "\\eta"), ("theta", "\\theta"),
  ("iota", "\\iota"), ("kappa", "\\kappa"), ("lambda", "\\lambda"), ("mu", "\\mu"), ("nu", "\\nu"),
  ("xi", "\\xi"), ("omicron", "o"), ("pi", "\\pi"), ("rho", "\\rho"), ("sigma", "\\sigma"),
  ("tau", "\\tau"), ("upsilon", "\\upsilon"), ("phi", "\\phi"), ("chi", "\\chi"), ("psi", "\\psi"),
  ("omega", "\\omega"), ("Alpha", "A"), ("Beta", "B"), ("Gamma", "\\Gamma"), ("Delta", "\\Delta"),
  ("Epsilon", "E"), ("Zeta", "Z"), ("Eta", "H"), ("Theta", "\\Theta"), ("Iota", "I"),
  ("Kappa", "K"), ("Lambda", "\\Lambda"), ("Mu", "M"), ("Nu", "N"), ("Xi", "\\Xi"),
  ("Omicron", "O"), ("Pi", "\\Pi"), ("Rho", "P"), ("Sigma", "\\Sigma"), ("Tau", "T"),
  ("Upsilon", "\\Upsilon"), ("Phi", "\\Phi"), ("Chi", "X"), ("Psi", "\\Psi"), ("Omega", "\\Omega")]

/-- Mathematical macros by name or ASCII spelling. -/
def math : Mapping := Mapping.ofStrings [
  ("<", "<"), ("<=", "\\leq"), ("=", "="), (">=", "\\geq"), (">", ">"), ("!=", "\\neq"),
  ("+-", "\\pm"), ("-+", "\\mp"), ("+", "+"), ("-", "-"), ("*", "\\times"), ("/", "/"),
  ("frac", "/"), ("obelus", "\\div"), ("inf", "\\infty"), ("deg", "^\\circ"), ("sum", "\\sum"),
  ("int", "\\int"), ("null", "\\emptyset"), ("'", "'"), ("''", "''"), ("'''", "'''"),
  ("''''", "''''"), ("hat", "\\^"), ("twiddle", "\\~"), ("dot", "\\."), ("dotdot", "\\\""),
  ("bar", "\\bar"), ("bbar", "\\overline")]

/-- The accent macros. They go in front of what they decorate. -/
def marks : List Text := [
  ofString "\\^", ofString "\\~", ofString "\\.", ofString "\\\"", ofString "\\bar",
  ofString "\\overline"]

end Sigil.Symbols.Latex
