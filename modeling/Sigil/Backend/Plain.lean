import Sigil.Backend.Group
import Sigil.Symbols.Plain
import Sigil.Symbols.Unicode

/-!
# Groups in plain text

Plain text spells keys out, and the tables say which keys there are. The last pass replaces what is
not ASCII by a question mark.
-/

namespace Sigil.Plain

open Symbols

/-- The mapping of each key to itself. -/
def spellOut (m : Mapping) : Mapping := .ofList (m.keys.map fun key => (key, key))

/-- A mathematical symbol. What has no code is ASCII already and stands for itself. -/
def mathSymbol (scope : Scope) (table symbol : Text) : Except Fault Text :=
  match scope.lookup table symbol with
  | .error (.unknownKey ..) => .ok symbol
  | result => result

/-- The mathematical symbol that the argument names. -/
def renderMath : Render := .ofKey mathSymbol

/-- A fraction as two numbers with a slash. -/
def renderFraction : Render := fun _ call => do
  return (← call.trimmedText) ++ "/" ++ (← call.trimmedSecondText)

/-- The built-in groups. -/
def definitions : List Definition := [
  { name := "arabic", description := "Arabic digits 0-9", mapping := some (spellOut Unicode.arabic),
    render := .lookupEach },
  { name := "frac", description := "fractions", render := renderFraction, arity := .exactly 2 },
  { name := "greek", description := "Greek letters", mapping := some (spellOut Unicode.greek) },
  { name := "math", description := "math symbols", mapping := some Plain.math,
    render := renderMath },
  { name := "script", description := "script capital letters",
    mapping := some (spellOut Unicode.script), render := .lookupEach },
  { name := "sub", description := "subscripts", render := .enclose "_" "" },
  { name := "sup", description := "superscripts", render := .enclose "^" "" }]

/-- Install the tables of the built-in groups. -/
def prepare (reg : Registry) : Registry := definitions.foldl (fun reg d => d.install .plain reg) reg

/-- Write a code point in ASCII. -/
def translatePoint (c : Nat) : Text := if c < 128 then Text.ofCodePoint c else "?"

/-- The last pass over output. -/
def translate (rendered : Text) : Text := rendered.mapPoints translatePoint

end Sigil.Plain
