import Sigil.Backend.Html
import Sigil.Backend.Latex
import Sigil.Backend.Plain
import Sigil.Backend.Unicode

/-!
# Backends

A backend writes expressions in one representation. It holds the groups that calls may name and how
strict it is by default; tables and marks are in a registry that backends share. Together the two
are the target of evaluation.
-/

namespace Sigil

/-- Writes expressions in one representation. -/
structure Backend where
  representation : Representation
  /-- Refuse unknown groups and keys unless asked otherwise. -/
  strict : Bool := false
  groups : OrderedMap Text Group := {}

namespace Backend

/-- The built-in groups of a representation. -/
def definitions : Representation → List Definition
  | .plain => Plain.definitions
  | .unicode => Unicode.definitions
  | .html => Html.definitions
  | .latex => Latex.definitions

/-- Install what the built-in groups of a representation need. -/
def prepare : Representation → Registry → Registry
  | .plain => Plain.prepare
  | .unicode => Unicode.prepare
  | .html => Html.prepare
  | .latex => Latex.prepare

/-- Add a group, or replace the one of the same name in its place. -/
def define (b : Backend) (d : Definition) : Backend :=
  { b with groups := b.groups.insert d.name d.group }

/-- The backend with the built-in groups. -/
def standard (r : Representation) (strict : Bool := false) : Backend :=
  (definitions r).foldl define { representation := r, strict }

/-- Calls may name the group. -/
def hasGroup (b : Backend) (name : Text) : Bool := b.groups.contains name

/-- The last pass over output; without fragments all of it is one literal. -/
def translate (b : Backend) (reg : Registry) (rendered : Text)
    (fragments : List Fragment := [⟨.literal, rendered⟩]) : Text :=
  match b.representation with
  | .plain => Plain.translate rendered
  | .unicode => rendered
  | .html => Html.translate rendered
  | .latex => Latex.translate (reg.isMark .latex) fragments

/-- Render a call, where `answer` says what a group makes of calls. -/
def invokeBy (b : Backend) (answer : Group → Invocation → Except Fault Text) (call : Invocation) :
    Except Fault Text :=
  match b.groups.get? call.group with
  | none => .error (.noGroup b.representation call.group)
  | some group =>
    if group.arity.accepts call.keys.length then answer group call
    else
      .error (.invalidArgument call.group
        (b.representation.name ++ " renderer '" ++ call.group ++ "' takes " ++ group.arity.text ++
          ", got " ++ Text.decimal call.keys.length))

/-- What a backend shows to renderers, where `answer` says what its groups make of calls. -/
def peerBy (b : Backend) (reg : Registry) (answer : Group → Invocation → Except Fault Text) :
    Peer where
  target :=
    { representation := b.representation
      strict := b.strict
      known := b.hasGroup
      invoke := fun name keys texts => b.invokeBy answer ⟨name, keys, texts⟩
      translate := fun rendered fragments => b.translate reg rendered fragments }
  groups := b.groups.entries.map fun (name, group) =>
    (name, ⟨group.description, group.arity, answer group⟩)

/-- What a backend shows to renderers, while its own renderers may ask `peers`. -/
def peer (b : Backend) (reg : Registry) (peers : Representation → Peer) : Peer :=
  b.peerBy reg fun group => group.render ⟨reg, b.representation, peers⟩

/-- The meaning of calls, where renderers may ask `peers`. -/
def target (b : Backend) (reg : Registry) (peers : Representation → Peer) : Target :=
  (b.peer reg peers).target

end Backend

end Sigil
