import Sigil.Glossary

/-!
# Symbols of the Standard Model

The group `sm`: quarks, colour charges, leptons, bosons and hadrons. Antiparticles carry a bar.
-/

namespace Sigil.Symbols

/-- The particles of the Standard Model. -/
def standardModel : Glossary where
  name := "sm"
  description := "Standard Model symbols"
  expressions := Mapping.ofStrings [
    ("u", "u"), ("d", "d"), ("c", "c"), ("s", "s"), ("t", "t"), ("b", "b"),
    ("u-bar", "u$math(bar)"), ("d-bar", "d$math(bar)"), ("c-bar", "c$math(bar)"),
    ("s-bar", "s$math(bar)"), ("t-bar", "t$math(bar)"), ("b-bar", "b$math(bar)"),
    ("R", "R"), ("G", "G"), ("B", "B"), ("R-bar", "R$math(bbar)"), ("G-bar", "G$math(bbar)"),
    ("B-bar", "B$math(bbar)"),
    ("e", "e"), ("e-", "e$sup(-)"), ("mu-", "$greek(mu)$sup(-)"), ("tau-", "$greek(tau)$sup(-)"),
    ("nu_e", "$greek(nu)$sub(e)"), ("nu_mu", "$greek(nu)$sub($greek(mu))"),
    ("nu_tau", "$greek(nu)$sub($greek(tau))"),
    ("e+", "e$sup(+)"), ("mu+", "$greek(mu)$sup(+)"), ("tau+", "$greek(tau)$sup(+)"),
    ("nu_e-bar", "$greek(nu)$math(bar)$sub(e)"),
    ("nu_mu-bar", "$greek(nu)$math(bar)$sub($greek(mu))"),
    ("nu_tau-bar", "$greek(nu)$math(bar)$sub($greek(tau))"),
    ("gamma", "$greek(gamma)"), ("g", "g"), ("W-", "W$sup(-)"), ("Z", "Z"), ("H0", "H$sup(0)"),
    ("W+", "W$sup(+)"),
    ("p", "p"), ("p+", "p$sup(+)"), ("n", "n"), ("n0", "n$sup(0)"), ("p-bar", "p$math(bar)"),
    ("n-bar", "n$math(bar)"),
    ("pi+", "$greek(pi)$sup(+)"), ("pi0", "$greek(pi)$sup(0)"), ("eta_c", "$greek(eta)$sub(c)"),
    ("eta_b", "$greek(eta)$sub(b)"),
    ("K+", "K$sup(+)"), ("K0", "K$sup(0)"),
    ("D+", "D$sup(+)"), ("D0", "D$sup(0)"), ("D+_s", "D$sub(s)$sup(+)"),
    ("B+", "B$sup(+)"), ("B0", "B$sup(0)"), ("B0_s", "B$sub(s)$sup(0)"),
    ("B+_c", "B$sub(c)$sup(+)"),
    ("pi-", "$greek(pi)$sup(-)"), ("pi0-bar", "$greek(pi)$math(bar)$sup(0)"),
    ("K-", "K$sup(-)"), ("K0-bar", "K$math(bar)$sup(0)"),
    ("D-", "D$sup(-)"), ("D0-bar", "D$math(bar)$sup(0)"), ("D-_s", "D$sub(s)$sup(-)"),
    ("B-", "B$sup(-)"), ("B0-bar", "B$math(bar)$sup(0)"), ("B0_s-bar", "B$math(bar)$sub(s)$sup(0)"),
    ("B-_c", "B$sub(c)$sup(-)")]

end Sigil.Symbols
