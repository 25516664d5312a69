import Sigil.Registry

/-!
# Unicode symbols

The characters that stand for each key, and the combining marks.
-/

namespace Sigil.Symbols.Unicode

open Text (ofString)

/-- Arabic-Indic digits by ASCII digit. -/
def arabic : Mapping := Mapping.ofStrings [
  ("0", "٠"), ("1", "١"), ("2", "٢"), ("3", "٣"), ("4", "٤"), ("5", "٥"), ("6", "٦"), ("7", "٧"),
  ("8", "٨"), ("9", "٩")]

/-- Precomposed fractions by numerator and denominator. -/
def fractions : Mapping := Mapping.ofStrings [
  ("1/2", "½"), ("0/3", "↉"), ("1/3", "⅓"), ("2/3", "⅔"), ("1/4", "¼"), ("3/4", "¾"), ("1/5", "⅕"),
  ("2/5", "⅖"), ("3/5", "⅗"), ("4/5", "⅘"), ("1/6", "⅙"), ("5/6", "⅚"), ("1/7", "⅐"), ("1/8", "⅛"),
  ("3/8", "⅜"), ("5/8", "⅝"), ("7/8", "⅞"), ("1/9", "⅑"), ("1/10", "⅒")]

/-- Greek letters by name. -/
def greek : Mapping := Mapping.ofStrings [
  ("alpha", "α"), ("beta", "β"), ("gamma", "γ"), ("delta", "δ"), ("epsilon", "ε"), ("zeta", "ζ"),
  ("eta", "η"), ("theta", "θ"), ("iota", "ι"), ("kappa", "κ"), ("lambda", "λ"), ("mu", "μ"),
  ("nu", "ν"), ("xi", "ξ"), ("omicron", "ο"), ("pi", "π"), ("rho", "ρ"), ("sigma", "σ"),
  ("tau", "τ"), ("upsilon", "υ"), ("phi", "φ"), ("chi", "χ"), ("psi", "ψ"), ("omega", "ω"),
  ("Alpha", "Α"), ("Beta", "Β"), ("Gamma", "Γ"), ("Delta", "Δ"), ("Epsilon", "Ε"), ("Zeta", "Ζ"),
  ("Eta", "Η"), ("Theta", "Θ"), ("Iota", "Ι"), ("Kappa", "Κ"), ("Lambda", "Λ"), ("Mu", "Μ"),
  ("Nu", "Ν"), ("Xi", "Ξ"), ("Omicron", "Ο"), ("Pi", "Π"), ("Rho", "Ρ"), ("Sigma", "Σ"),
  ("Tau", "Τ"), ("Upsilon", "Υ"), ("Phi", "Φ"), ("Chi", "Χ"), ("Psi", "Ψ"), ("Omega", "Ω")]

/-- Mathematical symbols and combining accents by name or ASCII spelling. -/
def math : Mapping := Mapping.ofStrings [
  ("<", "<"), ("<=", "≤"), ("=", "="), (">=", "≥"), (">", ">"), ("!=", "≠"), ("+-", "±"),
  ("-+", "∓"), ("+", "+"), ("-", "−"), ("*", "×"), ("/", "∕"), ("frac", "⁄"), ("obelus", "÷"),
  ("inf", "∞"), ("deg", "°"), ("sum", "∑"), ("int", "∫"), ("null", "Ø"), ("'", "′"), ("''", "″"),
  ("'''", "‴"), ("''''", "⁗"), ("hat", "\u0302"), ("twiddle", "\u0303"), ("dot", "\u0307"),
  ("dotdot", "\u0308"), ("bar", "\u0304"), ("bbar", "\u0305")]

/-- Script capitals by letter. -/
def script : Mapping := Mapping.ofStrings [
  ("A", "𝒜"), ("B", "ℬ"), ("C", "𝒞"), ("D", "𝒟"), ("E", "ℰ"), ("F", "ℱ"), ("G", "𝒢"), ("H", "ℋ"),
  ("I", "ℐ"), ("J", "𝒥"), ("K", "𝒦"), ("L", "ℒ"), ("M", "ℳ"), ("N", "𝒩"), ("O", "𝒪"), ("P", "𝒫"),
  ("Q", "𝒬"), ("R", "ℛ"), ("S", "𝒮"), ("T", "𝒯"), ("U", "𝒰"), ("V", "𝒱"), ("W", "𝒲"), ("X", "𝒳"),
  ("Y", "𝒴"), ("Z", "𝒵")]

/-- Subscripts by the character they lower. -/
def subscripts : Mapping := Mapping.ofStrings [
  ("0", "₀"), ("1", "₁"), ("2", "₂"), ("3", "₃"), ("4", "₄"), ("5", "₅"), ("6", "₆"), ("7", "₇"),
  ("8", "₈"), ("9", "₉"), ("+", "₊"), ("-", "₋"), ("=", "₌"), ("(", "₍"), (")", "₎"), ("a", "ₐ"),
  ("e", "ₑ"), ("o", "ₒ"), ("x", "ₓ"), ("@", "ₔ"), ("h", "ₕ"), ("k", "ₖ"), ("l", "ₗ"), ("m", "ₘ"),
  ("n", "ₙ"), ("p", "ₚ"), ("s", "ₛ"), ("t", "ₜ")]

/-- Superscripts by the character they raise. -/
def superscripts : Mapping := Mapping.ofStrings [
  ("0", "⁰"), ("1", "¹"), ("2", "²"), ("3", "³"), ("4", "⁴"), ("5", "⁵"), ("6", "⁶"), ("7", "⁷"),
  ("8", "⁸"), ("9", "⁹"), ("+", "⁺"), ("-", "⁻"), ("=", "⁼"), ("(", "⁽"), (")", "⁾"), ("i", "ⁱ"),
  ("n", "ⁿ"), ("o", "°"), ("\"", "\""), ("'", "'")]

/-- The combining accents, which overlay the character before them. -/
def marks : List Text := [
  ofString "\u0302", ofString "\u0303", ofString "\u0307", ofString "\u0308", ofString "\u0304",
  ofString "\u0305"]

end Sigil.Symbols.Unicode
