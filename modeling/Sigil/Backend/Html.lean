import Sigil.Backend.Group
import Sigil.Backend.Unicode

/-!
# Groups in HTML

Greek letters are named entities, and all other symbols are numeric references to the characters in
the tables for Unicode. The last pass breaks lines and replaces what is not ASCII by references.
-/

namespace Sigil.Html

open Symbols

/-- A numeric reference to a code point, in base sixteen. -/
def reference (c : Int) : Text := "&#x" ++ Text.signedHex c ++ ";"

/-- Numeric references to every code point of a text. -/
def references (t : Text) : Text := t.mapPoints fun c => reference c

/-- A unit of text that HTML would not read as itself. -/
def escapeUnit (u : CodeUnit) : Text :=
  if u = 0x26 then "&amp;"
  else if u = 0x3C then "&lt;"
  else if u = 0x3E then "&gt;"
  else if u = 0x22 then "&quot;"
  else [u]

/-- Text that HTML reads as the given one. -/
def escape (t : Text) : Text := t.flatMap escapeUnit

/-- The references of the character under a key in a table for Unicode. -/
def lookupReference (scope : Scope) (table key : Text) : Except Fault Text := do
  return references (← scope.registry.lookup .unicode table key)

/-- The references of each of a text's characters in a table for Unicode. -/
def lookupEachReference (scope : Scope) (table text : Text) : Except Fault Text := do
  let codes ← text.characters.mapM (scope.registry.lookup .unicode table)
  return codes.flatMap references

/-- The references of the argument's character in the table for Unicode. -/
def renderReference : Render := .ofKey lookupReference

/-- The references of each of the argument's characters in the table for Unicode. -/
def renderEachReference : Render := .ofKey lookupEachReference

/-- A fraction as a raised and a lowered number with a slash. -/
def renderFraction : Render := fun _ call => do
  return "<sup>" ++ (← call.trimmedText) ++ "</sup>/<sub>" ++ (← call.trimmedSecondText) ++ "</sub>"

/-- The named entities of the Greek letters. -/
def greekEntities : Mapping :=
  .ofList (Unicode.greek.keys.map fun name => (name, "&" ++ name ++ ";"))

/-- The built-in groups. -/
def definitions : List Definition := [
  { name := "arabic", description := "Arabic digits 0-9", render := renderEachReference },
  { name := "frac", description := "fractions", render := renderFraction, arity := .exactly 2 },
  { name := "greek", description := "Greek letters", mapping := some greekEntities },
  { name := "math", description := "math symbols", render := renderReference },
  { name := "script", description := "script capital letters", render := renderEachReference },
  { name := "sub", description := "subscripts", render := .enclose "<sub>" "</sub>" },
  { name := "sup", description := "superscripts", render := .enclose "<sup>" "</sup>" }]

/-- Install the tables of the built-in groups, and those for Unicode if Unicode was never mentioned,
since HTML renders through them. -/
def prepare (reg : Registry) : Registry :=
  let reg := if reg.hasRepresentation .unicode then reg else Sigil.Unicode.prepare reg
  definitions.foldl (fun reg d => d.install .html reg) reg

/-- Write a code point in HTML. -/
def translatePoint (c : Nat) : Text :=
  if c = 0x0A then "<br>" else if c < 128 then Text.ofCodePoint c else reference c

/-- The last pass over output. -/
def translate (rendered : Text) : Text := rendered.mapPoints translatePoint

end Sigil.Html
