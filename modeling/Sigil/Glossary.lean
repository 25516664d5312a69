import Sigil.Engine

/-!
# Glossaries

A glossary defines the symbols of a group once, as expressions, and installing it writes every
expression out in every representation. So the group needs no tables of its own by hand. Writing out
is lenient: what a representation has no code for falls back to its text.
-/

namespace Sigil

/-- Symbols that are defined by expressions. -/
structure Glossary where
  name : Text
  description : Text
  /-- The expression of each symbol. -/
  expressions : Mapping
  /-- Codes that a representation uses in place of an expression. -/
  spellings : Representation → Mapping := fun _ => {}

namespace Glossary

/-- The code of one symbol in the representation of a target. -/
def code (g : Glossary) (target : Target) (key expression : Text) : Except Fault Text :=
  match (g.spellings target.representation).get? key with
  | some code => .ok code
  | none => target.parse expression { strict := some false }

/-- The codes of all symbols in the representation of a target. -/
def mapping (g : Glossary) (target : Target) : Except Fault Mapping := do
  return .ofList (← g.expressions.entries.mapM fun (key, expression) => do
    return (key, ← g.code target key expression))

/-- The group of a glossary with the given codes. -/
def definition (g : Glossary) (mapping : Mapping) : Definition where
  name := g.name
  description := g.description
  mapping := some mapping

/-- Add the group to one representation, unless it has a group of that name. -/
def installIn (g : Glossary) (e : Engine) (r : Representation) : Except Fault Engine :=
  if (e.backend r).hasGroup g.name then .ok e
  else do
    return e.define r (g.definition (← g.mapping (e.target r)))

/-- Add the group to each of the representations, up to one whose codes cannot be written. What was
added before that stays. -/
def installAll (g : Glossary) (e : Engine) : List Representation → Engine × Option Fault
  | [] => (e, none)
  | r :: rest =>
    match g.installIn e r with
    | .ok e' => g.installAll e' rest
    | .error fault => (e, some fault)

/-- Add the group to every representation that has no group of that name. -/
def install (g : Glossary) (e : Engine) : Engine × Option Fault := g.installAll e Representation.all

end Glossary

namespace Engine

/-- The engine with glossaries on top, installed one after another. -/
def withGlossaries (e : Engine) (gs : List Glossary) : Engine :=
  gs.foldl (fun e g => (g.install e).1) e

end Engine

end Sigil
