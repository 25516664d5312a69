import Sigil.Fault

/-!
# Tokens of an expression

An expression is text with calls `$name(argument,...,argument)` in it. Reading it is the work of a
small automaton: `Mode.read` takes one code unit, and `Mode.finish` takes the end of the source.
They look at the source alone, so the tokens and the flaw of a source do not depend on what any
call means.

Between calls only `\$` is an escape. Inside an argument a backslash takes any unit literally.
-/

namespace Sigil

open CodeUnit

/-- A unit that may begin a name: an ASCII letter or an underscore. -/
def CodeUnit.beginsName (u : CodeUnit) : Bool :=
  (0x41 ≤ u && u ≤ 0x5A) || u == 0x5F || (0x61 ≤ u && u ≤ 0x7A)

/-- A unit that may continue a name. -/
def CodeUnit.continuesName (u : CodeUnit) : Bool := u.beginsName || u.isDigit

/-- An ASCII letter or underscore, followed by ASCII letters, digits and underscores. -/
def Text.isName : Text → Bool
  | [] => false
  | u :: rest => u.beginsName && rest.all continuesName

/-- A piece of an expression. Offsets count code units from the start of the source. -/
inductive Token where
  /-- Text between calls, with its escapes undone. -/
  | literal (text : Text)
  /-- A dollar sign and the name of a call; `stop` is the offset behind the name. -/
  | call (name : Text) (stop : Nat)
  /-- A unit of an argument. -/
  | unit (u : CodeUnit)
  /-- The end of an argument that has another one behind it. -/
  | comma
  /-- The end of a call; `stop` is the offset behind the parenthesis. -/
  | close (stop : Nat)
  deriving DecidableEq, Repr

/-- What a source reads as: tokens, and the flaw behind them together with its offset. -/
structure Scan where
  tokens : List Token
  flaw : Option (Flaw × Nat) := none
  deriving DecidableEq

/-- Put a token in front of others. Neighbouring literals become one. -/
def Token.cons : Token → List Token → List Token
  | .literal t, .literal t' :: rest => .literal (t ++ t') :: rest
  | token, rest => token :: rest

/-- Put a token in front of a scan. -/
def Scan.cons (token : Token) (s : Scan) : Scan := { s with tokens := token.cons s.tokens }

/-- Where in an expression a unit stands. The depth is the number of open calls around it. -/
inductive Mode where
  /-- Between calls. -/
  | text
  /-- Between calls, behind a backslash that may turn out to escape a dollar sign. -/
  | textEscape
  /-- Behind a dollar sign and the part of a name. -/
  | name (depth : Nat) (part : Text)
  /-- In an argument of a call that `depth` calls enclose. -/
  | argument (depth : Nat)
  /-- In an argument, behind a backslash. -/
  | argumentEscape (depth : Nat)
  deriving DecidableEq

namespace Mode

/-- The mode behind the parenthesis that closes a call which `depth` calls enclose. -/
def afterClose : Nat → Mode
  | 0 => text
  | depth + 1 => argument depth

/-- Read one unit, which stands at offset `here`: a token if one is complete, and the mode behind
the unit or the flaw that the unit brings to light. -/
def read (mode : Mode) (here : Nat) (u : CodeUnit) : Option Token × Except (Flaw × Nat) Mode :=
  match mode with
  | text =>
    if u = dollar then (none, .ok (name 0 []))
    else if u = backslash then (none, .ok textEscape)
    else (some (.literal [u]), .ok text)
  | textEscape =>
    if u = dollar then (some (.literal [dollar]), .ok text)
    else if u = backslash then (some (.literal [backslash]), .ok textEscape)
    else (some (.literal [backslash, u]), .ok text)
  | name depth [] =>
    if u.beginsName then (none, .ok (name depth [u])) else (none, .error (.missingName, here))
  | name depth (v :: part) =>
    if u.continuesName then (none, .ok (name depth (v :: part ++ [u])))
    else (some (.call (v :: part) here),
      if u = leftParen then .ok (argument depth) else .error (.missingOpen, here + 1))
  | argument depth =>
    if u = backslash then (none, .ok (argumentEscape depth))
    else if u = dollar then (none, .ok (name (depth + 1) []))
    else if u = comma then (some .comma, .ok (argument depth))
    else if u = rightParen then (some (.close (here + 1)), .ok (afterClose depth))
    else (some (.unit u), .ok (argument depth))
  | argumentEscape depth => (some (.unit u), .ok (argument depth))

/-- The source ends at offset `here`. -/
def finish (mode : Mode) (here : Nat) : Scan :=
  match mode with
  | text => ⟨[], none⟩
  | textEscape => ⟨[.literal [backslash]], none⟩
  | name _ [] => ⟨[], some (.missingName, here)⟩
  | name _ (v :: part) => ⟨[.call (v :: part) here], some (.missingOpen, here)⟩
  | argument _ => ⟨[], some (.missingClose, here)⟩
  | argumentEscape _ => ⟨[], some (.missingClose, here)⟩

/-- Read the rest of a source, which begins at offset `here`. -/
def scan (mode : Mode) (here : Nat) : Text → Scan
  | [] => mode.finish here
  | u :: rest =>
    match mode.read here u with
    | (token?, result) =>
      let behind : Scan := match result with
        | .ok next => next.scan (here + 1) rest
        | .error flaw => ⟨[], some flaw⟩
      match token? with
      | none => behind
      | some token => behind.cons token

end Mode

/-- Read a whole source. -/
def Scan.ofText (source : Text) : Scan := Mode.text.scan 0 source

/-- Read the rest of a source from the dollar sign at `offset` on. -/
def Scan.ofCall (source : Text) (offset : Nat) : Scan :=
  match source.drop offset with
  | [] => ⟨[], some (.missingCall, offset)⟩
  | u :: rest =>
    if u = dollar then (Mode.name 0 []).scan (offset + 1) rest
    else ⟨[], some (.missingCall, offset + 1)⟩

end Sigil
