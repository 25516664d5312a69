import Sigil.Engine

/-!
# Renderings

An expression written out in all four representations, one of which is the default. A rendering can
be replaced by hand.
-/

namespace Sigil

/-- An expression in all four representations. Before the first evaluation all are empty. -/
structure Renderings where
  codes : PerRepresentation Text := .ofFn fun _ => []
  default : Representation := .unicode

namespace Renderings

/-- The rendering in the default representation. -/
def value (s : Renderings) : Text := s.codes.get s.default

/-- What renderings read as where a single text is wanted. -/
def text (s : Renderings) : Text := s.value

/-- Write an expression out in all representations; the first that fails decides the fault. -/
def render (e : Engine) (source : Text) : Except Fault (PerRepresentation Text) := do
  let plain ← e.parse .plain source
  let unicode ← e.parse .unicode source
  let html ← e.parse .html source
  let latex ← e.parse .latex source
  return { plain, unicode, html, latex }

/-- Replace all renderings by those of an expression. -/
def evaluate (s : Renderings) (e : Engine) (source : Text) : Except Fault Renderings := do
  return { s with codes := ← render e source }

/-- The renderings of an expression, if there is one, with the default representation named. -/
def create (e : Engine) (source : Option Text) (default : Text := "unicode") :
    Except Fault Renderings := do
  let s : Renderings := { default := ← Representation.resolve default }
  match source with
  | some source => s.evaluate e source
  | none => return s

/-- The rendering in a named representation. -/
def get (s : Renderings) (representation : Text) : Except Fault Text := do
  return s.codes.get (← Representation.resolve representation)

/-- Replace the rendering in a named representation. -/
def set (s : Renderings) (representation code : Text) : Except Fault Renderings := do
  return { s with codes := s.codes.set (← Representation.resolve representation) code }

/-- Choose the default representation by name. -/
def setDefault (s : Renderings) (representation : Text) : Except Fault Renderings := do
  return { s with default := ← Representation.resolve representation }

/-- The representations by name. -/
def alphabetical : List Representation := [.html, .latex, .plain, .unicode]

/-- The width of the longest name with a colon and a blank behind it. -/
def labelWidth : Nat := (Representation.all.map fun r => r.name.length).foldl max 0 + 2

/-- One line for each representation, the renderings in one column. -/
def describe (s : Renderings) : Text :=
  Text.join "\n" <| alphabetical.map fun r =>
    let label : Text := r.name ++ ":"
    label.padTo labelWidth label.length ++ s.codes.get r

end Renderings

end Sigil
