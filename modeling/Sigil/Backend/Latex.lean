import Sigil.Backend.Group
import Sigil.Symbols.Latex

/-!
# Groups in LaTeX

An accent macro goes in front of what it decorates, so the last pass moves each mark over the
fragment before it: a mark behind a call decorates the whole call, and a mark behind literal text
decorates its last character. After that it replaces blanks, line ends and all that is not ASCII.
-/

namespace Sigil.Latex

open Symbols CodeUnit

/-- The text in braces. -/
def brace (t : Text) : Text := "\x7b" ++ t ++ "\x7d"

/-- The text in braces, unless it begins with one. -/
def braceOnce (t : Text) : Text := if t.head? = some leftBrace then t else brace t

/-- A script capital. -/
def renderScript : Render := fun _ call => do return "\\mathcal" ++ brace (← call.trimmedText)

/-- A fraction. -/
def renderFraction : Render := fun _ call =>
  .ok ("\\frac" ++ brace call.text ++ brace call.secondText)

/-- The built-in groups. -/
def definitions : List Definition := [
  { name := "arabic", description := "Arabic digits 0-9", render := .enclose "" "" },
  { name := "frac", description := "fractions", render := renderFraction, arity := .exactly 2 },
  { name := "greek", description := "Greek letters", mapping := some Latex.greek },
  { name := "math", description := "math symbols", mapping := some Latex.math },
  { name := "script", description := "script capital letters", render := renderScript },
  { name := "sub", description := "subscripts", render := .enclose "_\x7b" "\x7d" },
  { name := "sup", description := "superscripts", render := .enclose "^\x7b" "\x7d" }]

/-- Install the tables of the built-in groups and the accent macros as marks. -/
def prepare (reg : Registry) : Registry :=
  (definitions.foldl (fun reg d => d.install .latex reg) reg).setMarks .latex Latex.marks

/-! ## Marks -/

/-- Put a mark over a fragment. -/
def decorate (base : Fragment) (mark : Text) : List Fragment :=
  match base.kind with
  | .call => [⟨.call, mark ++ braceOnce base.text⟩]
  | .literal =>
    let characters := base.text.characters
    match characters.getLast? with
    | none => [⟨.call, mark⟩]
    | some last =>
      let decorated : Fragment := ⟨.call, mark ++ brace last⟩
      let rest := characters.dropLast
      if rest = [] then [decorated] else [⟨.literal, rest.flatten⟩, decorated]

/-- Add a fragment to those already in order. A mark moves over the last of them. -/
def place (isMark : Text → Bool) (ordered : List Fragment) (fragment : Fragment) : List Fragment :=
  if fragment.kind = .call ∧ isMark fragment.text then
    match ordered.getLast? with
    | none => [fragment]
    | some base => ordered.dropLast ++ decorate base fragment.text
  else ordered ++ [fragment]

/-- The fragments with every mark in front of what it decorates. -/
def reorder (isMark : Text → Bool) (fragments : List Fragment) : List Fragment :=
  fragments.foldl (place isMark) []

/-! ## The last pass -/

/-- Write a code point in LaTeX. -/
def translatePoint (c : Nat) : Text :=
  if c = 0x0A then "\\\\"
  else if c = 0x20 then "\\ "
  else if c < 128 then Text.ofCodePoint c
  else "\\unicode" ++ brace (Text.hex c)

/-- The last pass over output that consists of the given fragments. -/
def translate (isMark : Text → Bool) (fragments : List Fragment) : Text :=
  (Fragment.concat (reorder isMark fragments)).mapPoints translatePoint

end Sigil.Latex
