import Sigil.Backend.Group
import Sigil.Symbols.Unicode

/-!
# Groups in Unicode

Every group looks its codes up in a table of characters. Output needs no last pass.
-/

namespace Sigil.Unicode

open Symbols

/-- A fraction. One is left out below a numerator, and zero makes it infinite. A precomposed
character is used if there is one; otherwise the parts are raised and lowered around a fraction
slash, and parts that cannot be are written as they are. -/
def fraction (scope : Scope) (table numerator denominator : Text) : Except Fault Text :=
  if denominator = "1" then .ok numerator
  else if denominator = "0" then scope.lookup "math" "inf"
  else
    let plain : Text := numerator ++ "/" ++ denominator
    match scope.lookup table plain with
    | .error (.unknownKey ..) =>
      let built : Except Fault Text := do
        let raised ← scope.lookupEach "sup" numerator
        let slash ← scope.lookup "math" "frac"
        let lowered ← scope.lookupEach "sub" denominator
        return raised ++ slash ++ lowered
      match built with
      | .error (.unknownKey ..) => .ok plain
      | result => result
    | result => result

/-- The fraction of the arguments, blanks ignored. -/
def renderFraction : Render := fun scope call => do
  fraction scope call.group (← call.trimmedKey) (← call.trimmedSecondKey)

/-- The built-in groups. -/
def definitions : List Definition := [
  { name := "arabic", description := "Arabic digits 0-9", mapping := some Unicode.arabic,
    render := .lookupEach },
  { name := "frac", description := "fractions", mapping := some Unicode.fractions,
    render := renderFraction, arity := .exactly 2 },
  { name := "greek", description := "Greek letters", mapping := some Unicode.greek },
  { name := "math", description := "math symbols", mapping := some Unicode.math },
  { name := "script", description := "script capital letters", mapping := some Unicode.script,
    render := .lookupEach },
  { name := "sub", description := "subscripts", mapping := some Unicode.subscripts,
    render := .lookupEach },
  { name := "sup", description := "superscripts", mapping := some Unicode.superscripts,
    render := .lookupEach }]

/-- Install the tables of the built-in groups and the combining marks. -/
def prepare (reg : Registry) : Registry :=
  (definitions.foldl (fun reg d => d.install .unicode reg) reg).setMarks .unicode Unicode.marks

end Sigil.Unicode
