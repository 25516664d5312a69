import Sigil.Backend

/-!
# Engines

An engine is a registry together with the backends of all four representations, which share it. A
renderer of one backend may ask all four what they make of calls and expressions, and which groups
they have. Renderers that ask one another without end fill the stack.
-/

namespace Sigil

/-- A registry and a backend for each representation. -/
structure Engine where
  registry : Registry
  backends : PerRepresentation Backend
  /-- How deeply renderers may ask backends inside one another before the stack is full. This is up
  to the machine. -/
  stack : Nat := 1000

namespace Engine

/-- The order in which backends prepare the registry. Unicode comes first, since HTML renders
through its tables. -/
def preparationOrder : List Representation := [.unicode, .plain, .html, .latex]

/-- The engine with the built-in groups, over a registry that may hold tables already. -/
def create (strict : Bool := false) (registry : Registry := .empty) : Engine where
  registry := preparationOrder.foldl (fun reg r => Backend.prepare r reg) registry
  backends := .ofFn fun r => Backend.standard r strict

/-- The backend of a representation. -/
def backend (e : Engine) (r : Representation) : Backend := e.backends.get r

/-- What the backends show to renderers while the stack has room for renderers to this depth. -/
def peersWithin (e : Engine) : Nat → Representation → Peer
  | 0, r => (e.backend r).peerBy e.registry fun _ _ => .error .endlessRendering
  | depth + 1, r => (e.backend r).peer e.registry (e.peersWithin depth)

/-- What the backends show to renderers. -/
def peers (e : Engine) : Representation → Peer := e.peersWithin e.stack

/-- The meaning of calls in a representation. -/
def target (e : Engine) (r : Representation) : Target := (e.backend r).target e.registry e.peers

/-- Render a call outside an expression. -/
def invoke (e : Engine) (r : Representation) (name : Text) (keys texts : List Text) :
    Except Fault Text :=
  (e.target r).invoke name keys texts

/-- Write an expression out in one representation. -/
def parse (e : Engine) (r : Representation) (source : Text) (options : Options := {}) :
    Except Fault Text :=
  (e.target r).parse source options

/-- Write the call at an offset out; the result has the offset behind the call. -/
def parseCall (e : Engine) (r : Representation) (source : Text) (offset : Nat)
    (options : Options := {}) : Except Fault (Text × Nat) :=
  (e.target r).parseCall source offset options

/-- Add a group to one representation, together with the table it brings. -/
def define (e : Engine) (r : Representation) (d : Definition) : Engine :=
  { e with
    registry := d.install r e.registry
    backends := e.backends.set r ((e.backend r).define d) }

end Engine

end Sigil
