import Sigil.Renderings

/-!
# Histories of renderings

What a user does with renderings, one operation after another. An operation works step by step and
may fail on the way, and nothing undoes the steps before that: `Operation.run` gives the renderings
behind the operation in either case. Whether an operation fails, and what it writes, can be read off
the operation alone.
-/

namespace Sigil.Renderings

/-- A computation on renderings that may fail. What it changed before it fails stays changed. -/
abbrev Action := EStateM Fault Renderings

/-- What a user does with renderings. -/
inductive Operation where
  /-- Put new renderings in the place of those at hand: those of an expression, or empty ones. -/
  | create (source : Option Text) (default : Text)
  | evaluate (source : Text)
  | set (representation code : Text)
  | setDefault (representation : Text)
  | get (representation : Text)

/-- Replace the code in one representation. -/
def write (entry : Representation × Text) : Action Unit :=
  modify fun s => { s with codes := s.codes.set entry.1 entry.2 }

/-- Write an expression out in one representation after another. -/
def outcomes (e : Engine) (source : Text) : Except Fault (List (Representation × Text)) :=
  Representation.all.mapM fun r => do return (r, ← e.parse r source)

namespace Operation

/-- The steps of an operation, and its answer if it has one. -/
def run (e : Engine) : Operation → Action (Option Text)
  | create source default => do
    MonadStateOf.set (← ofExcept (Renderings.create e source default))
    return none
  | evaluate source => do
    let entries ← ofExcept (outcomes e source)
    entries.forM write
    return some (← getThe Renderings).value
  | set representation code => do
    let r ← ofExcept (Representation.resolve representation)
    write (r, code)
    return none
  | setDefault representation => do
    let r ← ofExcept (Representation.resolve representation)
    modify fun s => { s with default := r }
    return none
  | get representation => do
    let r ← ofExcept (Representation.resolve representation)
    return some ((← getThe Renderings).codes.get r)

end Operation

/-- The renderings behind an operation, whether it succeeds or fails. -/
def perform (e : Engine) (s : Renderings) (op : Operation) : Renderings :=
  match op.run e s with
  | .ok _ s' => s'
  | .error _ s' => s'

/-- The renderings that a history of operations leaves, which began with empty ones. -/
def ofHistory (e : Engine) (ops : List Operation) : Renderings := ops.foldl (perform e) {}

/-! ## What an operation says -/

/-- The fault of a computation that failed. -/
def faultOf? {α : Type} : Except Fault α → Option Fault
  | .ok _ => none
  | .error fault => some fault

/-- The fault of the first representation, in listing order, in which a source cannot be written
out. -/
def firstFault? (e : Engine) (source : Text) : Option Fault :=
  Representation.all.findSome? fun r => faultOf? (e.parse r source)

/-- The fault of a name that means no representation. -/
def unresolved? (representation : Text) : Option Fault :=
  faultOf? (Representation.resolve representation)

namespace Operation

/-- Why the operation fails, if it does. -/
def fault? (e : Engine) : Operation → Option Fault
  | create source default => (unresolved? default).or (source.bind (firstFault? e))
  | evaluate source => firstFault? e source
  | set representation _ => unresolved? representation
  | setDefault representation => unresolved? representation
  | get representation => unresolved? representation

/-- The code that the operation writes in a representation, if it succeeds. -/
def code? (e : Engine) (r : Representation) : Operation → Option Text
  | create none _ => some []
  | create (some source) _ => (e.parse r source).toOption
  | evaluate source => (e.parse r source).toOption
  | set representation code =>
    if Representation.read? representation = some r then some code else none
  | setDefault _ => none
  | get _ => none

/-- The default representation that the operation chooses, if it succeeds. -/
def default? : Operation → Option Representation
  | create _ default => Representation.read? default
  | setDefault representation => Representation.read? representation
  | _ => none

end Operation

end Sigil.Renderings
