import Sigil.Expression.Evaluation

/-!
# Expressions by recursive descent

A second way to evaluate an expression: routines that move a cursor along the source, one for each
kind of part, where a call and its arguments are read by routines that call each other. The cursor
counts units from the start of the source. A routine that has to look at a unit before it knows
whether the unit is its own takes the unit and puts it back.

A loop takes a bounded number of rounds, and calls nest to a bounded depth. Beyond these limits a
routine gives up with `Halt.limit`.
-/

namespace Sigil

open CodeUnit

/-- A unit that may stand behind this part of a name. -/
def CodeUnit.extendsName (part : Text) (u : CodeUnit) : Bool :=
  if part = [] then u.beginsName else u.continuesName

/-- Add to an argument. -/
def Argument.append (a : Argument) (key text : Text) : Argument := ⟨a.key ++ key, a.text ++ text⟩

/-- Why a routine does not return. -/
inductive Halt where
  | fault (fault : Fault)
  /-- A loop took too many rounds, or calls are nested too deeply. -/
  | limit
  deriving DecidableEq

/-- What moves a cursor. The cursor stays where it is when the routine does not return. -/
abbrev Routine (α : Type) := EStateM Halt Nat α

/-- What a routine comes to from a place on, unless it reaches a limit. -/
def Routine.outcome? {α : Type} (r : Routine α) (start : Nat) : Option (Except Fault α) :=
  match r.run start with
  | .ok a _ => some (.ok a)
  | .error (.fault fault) _ => some (.error fault)
  | .error .limit _ => none

/-- Return a result, or give up with a fault. -/
def Routine.ofResult {α : Type} : Except Fault α → Routine α
  | .ok a => pure a
  | .error fault => throw (.fault fault)

/-- What the routines work with. -/
structure Descent where
  target : Target
  manner : Manner
  source : Text
  /-- The greatest number of rounds of a loop. -/
  limit : Nat

namespace Descent

variable {α σ : Type} (d : Descent)

/-! ## The cursor -/

/-- The unit at the cursor; none at the end of the source. -/
def peek : Routine (Option CodeUnit) := do return d.source[← get]?

/-- Take the unit at the cursor. At the end of the source the cursor stays. -/
def consume : Routine (Option CodeUnit) := do
  let u? ← d.peek
  if u?.isSome then modify (· + 1)
  return u?

/-- Put the unit in front of the cursor back. At the start of the source the cursor stays. -/
def unconsume : Routine Unit := modify (· - 1)

/-- Give the expression up at the cursor. -/
def giveUp (cause : ParseCause) : Routine α := do
  throw (.fault (.parse ⟨cause, d.source, ← get⟩))

/-- Take the unit that has to stand at the cursor. The expression is given up behind any other unit. -/
def expect (u : CodeUnit) (flaw : Flaw) : Routine Unit := do
  if (← d.consume) ≠ some u then d.giveUp (.flaw flaw)

/-- Go through further rounds until one of them is the last or the source ends. -/
def loop (round : σ → Routine (ForInStep σ)) : Nat → σ → Routine σ
  | 0, s => do
    if (← d.peek) = none then return s else throw .limit
  | rounds + 1, s => do
    if (← d.peek) = none then return s
    else match ← round s with
      | .done s => return s
      | .yield s => loop round rounds s

/-! ## Parts of an expression -/

/-- Read a unit of literal text, or an escaped dollar sign. A dollar sign ends the text. -/
def literalRound (text : Text) : Routine (ForInStep Text) := do
  let u? ← d.consume
  if u? = some dollar then
    unconsume
    return .done text
  else if u? = some backslash then
    if (← d.peek) = some dollar then return .yield (text ++ (← d.consume).toList)
    else return .yield (text ++ u?.toList)
  else return .yield (text ++ u?.toList)

/-- Read literal text. -/
def literalRun : Routine Text := do
  return d.manner.escape (← d.loop d.literalRound d.limit [])

/-- Read a unit of a name. What cannot stand in a name ends it. -/
def nameRound (name : Text) : Routine (ForInStep Text) := do
  let u? ← d.consume
  if u?.any (extendsName name) then
    return .yield (name ++ u?.toList)
  else
    unconsume
    return .done name

/-- Read a name, which is empty if none stands at the cursor. -/
def name : Routine Text := d.loop d.nameRound d.limit []

/-- Read a part of an argument: a unit, an escaped unit or a call. A comma and a closing parenthesis
end the argument. -/
def argumentRound (call : Routine Text) (arg : Argument) : Routine (ForInStep Argument) := do
  let u? ← d.consume
  if u? = some backslash then
    let v? ← d.consume
    return .yield (arg.append v?.toList (d.manner.escape v?.toList))
  else if u? = some dollar then
    let rendered ← call
    return .yield (arg.append rendered rendered)
  else if u? = some comma ∨ u? = some rightParen then
    unconsume
    return .done arg
  else return .yield (arg.append u?.toList (d.manner.escape u?.toList))

/-- Read an argument. -/
def argument (call : Routine Text) : Routine Argument := d.loop (d.argumentRound call) d.limit {}

/-- Read an argument and the comma behind it. The argument is the last if there is none. -/
def argumentsRound (call : Routine Text) (args : List Argument) :
    Routine (ForInStep (List Argument)) := do
  let arg ← d.argument call
  let args := if arg.key = [] then args else args ++ [arg]
  if (← d.peek) = some comma then
    let _ ← d.consume
    return .yield args
  else return .done args

/-- Read the arguments of a call. -/
def arguments (call : Routine Text) : Routine (List Argument) :=
  d.loop (d.argumentsRound call) d.limit []

/-- Read and render a call behind its dollar sign, in which calls nest less deeply than the given
number. -/
def call : Nat → Routine Text
  | 0 => throw .limit
  | depth + 1 => do
    let name ← d.name
    if name = [] then d.giveUp (.flaw .missingName)
    else if d.manner.strict && !d.target.known name then
      d.giveUp (.unknownCall d.target.representation name)
    else
      d.expect leftParen .missingOpen
      let args ← d.arguments (call depth)
      d.expect rightParen .missingClose
      Routine.ofResult (d.target.renderCall d.manner d.source (← get) name args)

/-- Read a literal run or a call. -/
def fragment (depth : Nat) : Routine Fragment := do
  if (← d.peek) = some dollar then
    let _ ← d.consume
    return ⟨.call, ← d.call depth⟩
  else return ⟨.literal, ← d.literalRun⟩

/-- Read the source to its end. -/
def fragments (depth : Nat) : Routine (List Fragment) :=
  d.loop (fun fragments => do return .yield (fragments ++ [← d.fragment depth])) d.limit []

/-- Write the source out. -/
def parse (depth : Nat) : Routine Text := do return d.target.output (← d.fragments depth)

/-- Write the call at the cursor out; the result has the offset behind the call. -/
def parseCall (depth : Nat) : Routine (Text × Nat) := do
  d.expect dollar .missingCall
  let rendered ← d.call depth
  return (d.target.output [⟨.call, rendered⟩], ← get)

end Descent

end Sigil
