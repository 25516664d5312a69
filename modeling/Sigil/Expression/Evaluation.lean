import Sigil.Expression.Token

/-!
# Evaluation of an expression

A target says what calls mean. Evaluation runs over the tokens of a source with a stack of open
calls. Each argument is kept twice: as a lookup key with the text of the source, and as output text
with that text escaped. Rendered calls enter both.

A call that cannot be rendered for want of a group or a key is replaced by its arguments, unless
evaluation is strict. All other refusals end evaluation, and so does the flaw behind the tokens.
-/

namespace Sigil

/-- Where a top-level piece of output comes from. -/
inductive FragmentKind where
  | literal
  | call
  deriving DecidableEq, Repr

/-- A top-level piece of output: a literal run of text or a rendered call. -/
structure Fragment where
  kind : FragmentKind
  text : Text
  deriving DecidableEq

/-- The output of a list of fragments. -/
def Fragment.concat (fragments : List Fragment) : Text := fragments.flatMap Fragment.text

/-- What the calls of an expression mean. -/
structure Target where
  representation : Representation
  /-- Evaluation is strict unless asked otherwise. -/
  strict : Bool := false
  /-- The group of calls exists. -/
  known : Text → Bool
  /-- Render a call from its name, the keys of its arguments and their output text. -/
  invoke : Text → List Text → List Text → Except Fault Text
  /-- The last pass over the output, which is the concatenation of the fragments. -/
  translate : Text → List Fragment → Text

/-- How to evaluate. -/
structure Manner where
  /-- Refuse unknown groups and keys. -/
  strict : Bool := false
  /-- Applied to text of the source on its way to the output. -/
  escape : Text → Text := id

/-- The wishes of a caller; without a wish for strictness the target decides. -/
structure Options where
  strict : Option Bool := none
  escape : Text → Text := id

/-- The manner in which a target is evaluated. -/
def Options.manner (options : Options) (target : Target) : Manner :=
  ⟨options.strict.getD target.strict, options.escape⟩

/-- An argument as a lookup key and as output text. -/
structure Argument where
  key : Text := []
  text : Text := []
  deriving DecidableEq

/-- A call whose closing parenthesis is still to come. -/
structure OpenCall where
  name : Text
  /-- The complete arguments. -/
  args : List Argument := []
  /-- The argument being read. -/
  current : Argument := {}

namespace OpenCall

/-- Add to the argument being read. -/
def append (c : OpenCall) (key text : Text) : OpenCall :=
  { c with current := ⟨c.current.key ++ key, c.current.text ++ text⟩ }

/-- Complete the argument being read. An argument with an empty key is dropped. -/
def completeArgument (c : OpenCall) : OpenCall :=
  { c with args := if c.current.key = [] then c.args else c.args ++ [c.current], current := {} }

end OpenCall

/-- The state of evaluation: finished fragments, and open calls with the innermost first. -/
structure Progress where
  fragments : List Fragment := []
  calls : List OpenCall := []

namespace Target

/-- Give up an expression. -/
def giveUp (source : Text) (offset : Int) (cause : ParseCause) : Except Fault α :=
  .error (.parse ⟨cause, source, offset⟩)

/-- Render a complete call whose parenthesis closes in front of offset `stop`. -/
def renderCall (target : Target) (manner : Manner) (source : Text) (stop : Nat) (name : Text)
    (args : List Argument) : Except Fault Text :=
  let keys := args.map Argument.key
  let texts := args.map Argument.text
  let substitute := Text.join " " texts
  if target.known name then
    match target.invoke name keys texts with
    | .error (.unknownGroup _ reason) =>
      if manner.strict then giveUp source stop (.unknownGroup name keys reason) else .ok substitute
    | .error (.unknownKey _ _ reason) =>
      if manner.strict then giveUp source stop (.unknownKey name keys reason) else .ok substitute
    | .error (.invalidArgument _ reason) => giveUp source stop (.invalidArgument reason)
    | result => result
  else .ok substitute

/-- Take one token. -/
def step (target : Target) (manner : Manner) (source : Text) (p : Progress) :
    Token → Except Fault Progress
  | .literal t => .ok { p with fragments := p.fragments ++ [⟨.literal, manner.escape t⟩] }
  | .call name stop =>
    if manner.strict && !target.known name then
      giveUp source stop (.unknownCall target.representation name)
    else .ok { p with calls := { name } :: p.calls }
  | .unit u =>
    match p.calls with
    | [] => .ok p
    | c :: outer => .ok { p with calls := c.append [u] (manner.escape [u]) :: outer }
  | .comma =>
    match p.calls with
    | [] => .ok p
    | c :: outer => .ok { p with calls := c.completeArgument :: outer }
  | .close stop =>
    match p.calls with
    | [] => .ok p
    | c :: outer => do
      let rendered ← renderCall target manner source stop c.name c.completeArgument.args
      match outer with
      | [] => .ok ⟨p.fragments ++ [⟨.call, rendered⟩], []⟩
      | c' :: outer => .ok { p with calls := c'.append rendered rendered :: outer }

/-- Evaluate a whole source to its fragments. -/
def evaluate (target : Target) (manner : Manner) (source : Text) : Except Fault (List Fragment) :=
  do
    let scan := Scan.ofText source
    let p ← scan.tokens.foldlM (target.step manner source) {}
    match scan.flaw with
    | some (flaw, offset) => giveUp source offset (.flaw flaw)
    | none => .ok p.fragments

/-- Take tokens until a call is complete that no other encloses; the result is what it renders to
and the offset behind it. -/
def runCall (target : Target) (manner : Manner) (source : Text) (flaw : Option (Flaw × Nat))
    (p : Progress) : List Token → Except Fault (Text × Nat)
  | [] =>
    match flaw with
    | some (flaw, offset) => giveUp source offset (.flaw flaw)
    | none => .ok ([], source.length)
  | token :: rest => do
    let p ← target.step manner source p token
    match token, p.calls, p.fragments with
    | .close stop, [], [fragment] => .ok (fragment.text, stop)
    | _, _, _ => runCall target manner source flaw p rest

/-- Evaluate the call whose dollar sign stands at `offset`: what it renders to, and the offset
behind its closing parenthesis. -/
def evaluateCall (target : Target) (manner : Manner) (source : Text) (offset : Nat) :
    Except Fault (Text × Nat) :=
  let scan := Scan.ofCall source offset
  target.runCall manner source scan.flaw {} scan.tokens

/-- The output of a list of fragments after the last pass. -/
def output (target : Target) (fragments : List Fragment) : Text :=
  target.translate (Fragment.concat fragments) fragments

/-- Write a whole source out. -/
def parse (target : Target) (source : Text) (options : Options := {}) : Except Fault Text := do
  return target.output (← target.evaluate (options.manner target) source)

/-- Write the call at `offset` out; the result has the offset behind the call. -/
def parseCall (target : Target) (source : Text) (offset : Nat) (options : Options := {}) :
    Except Fault (Text × Nat) := do
  let (text, stop) ← target.evaluateCall (options.manner target) source offset
  return (target.output [⟨.call, text⟩], stop)

/-- Write the call at an offset out. In front of the source there is no call, and the offset behind
the unit that is missing there is reported. -/
def parseCallAt (target : Target) (source : Text) (offset : Int) (options : Options := {}) :
    Except Fault (Text × Nat) :=
  match offset with
  | .ofNat offset => target.parseCall source offset options
  | .negSucc before => giveUp source (.negSucc before + 1) (.flaw .missingCall)

end Target

end Sigil
