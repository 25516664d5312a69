import Sigil.Representation
import Sigil.Text.Numeral

/-!
# Faults

Everything that can go wrong, by cause. `Fault.message` holds all wording. A `ParseFault` says where
in the source an expression was given up, and `ParseFault.report` shows the place with a caret.
-/

namespace Sigil

/-- What makes a source no expression. -/
inductive Flaw where
  /-- A dollar sign without a name behind it. -/
  | missingName
  /-- A name without an opening parenthesis behind it. -/
  | missingOpen
  /-- The source ends inside a call. -/
  | missingClose
  /-- A call was asked for where none begins. -/
  | missingCall
  deriving DecidableEq, Repr

/-- The wording of a flaw. -/
def Flaw.message : Flaw → Text
  | missingName => "missing call identifier after '$'"
  | missingOpen => "missing left parenthesis '('"
  | missingClose => "missing right parenthesis ')'"
  | missingCall => "expected '$' call"

/-- Why an expression was given up. -/
inductive ParseCause where
  /-- The source is no expression. -/
  | flaw (flaw : Flaw)
  /-- A call names a group that the representation does not have. -/
  | unknownCall (representation : Representation) (name : Text)
  /-- A call was refused for want of a group or of a table. -/
  | unknownGroup (name : Text) (keys : List Text) (reason : Text)
  /-- A call was refused because a table lacks the key. -/
  | unknownKey (name : Text) (keys : List Text) (reason : Text)
  /-- A call has arguments that its group cannot take. -/
  | invalidArgument (reason : Text)
  deriving DecidableEq

/-- The four kinds of causes that readers tell apart. -/
inductive ParseKind where
  | malformed
  | unknownGroup
  | unknownKey
  | invalidArgument
  deriving DecidableEq, Repr

namespace ParseCause

/-- The kind of a cause. -/
def kind : ParseCause → ParseKind
  | flaw _ => .malformed
  | unknownCall .. => .unknownGroup
  | unknownGroup .. => .unknownGroup
  | unknownKey .. => .unknownKey
  | invalidArgument _ => .invalidArgument

/-- A call spelled with its lookup keys, followed by the reason for its refusal. -/
def refusal (name : Text) (keys : List Text) (reason : Text) : Text :=
  name ++ "(" ++ Text.join "," keys ++ "): " ++ reason

/-- The wording of a cause. -/
def message : ParseCause → Text
  | flaw f => f.message
  | unknownCall representation name => representation.name ++ " call '" ++ name ++ "' not found"
  | unknownGroup name keys reason => refusal name keys reason
  | unknownKey name keys reason => refusal name keys reason
  | invalidArgument reason => reason

end ParseCause

/-- An expression that was given up at an offset of its source. The offset is negative only if a call
was asked for far in front of the source. -/
structure ParseFault where
  cause : ParseCause
  source : Text
  offset : Int
  deriving DecidableEq

/-- The source, a caret under the offset, and the message, each on a line. In front of the source
there is no place for a caret. -/
def ParseFault.report (e : ParseFault) : Text :=
  e.source ++ "\n" ++ Text.spaces e.offset.toNat ++ "^\n" ++ e.cause.message

/-- A failure of any operation of the library. -/
inductive Fault where
  /-- An expression was given up. -/
  | parse (fault : ParseFault)
  /-- The registry lacks a table; `installed` says that it has others of the representation. -/
  | missingTable (representation : Representation) (table : Text) (installed : Bool)
  /-- A table of the registry lacks a key. -/
  | missingKey (representation : Representation) (table key : Text)
  /-- A call cannot be rendered for want of a group or of a table. -/
  | unknownGroup (group reason : Text)
  /-- A call cannot be rendered because a table lacks the key. -/
  | unknownKey (group key reason : Text)
  /-- A call has arguments that its group cannot take. -/
  | invalidArgument (group reason : Text)
  /-- A name that means no representation. -/
  | unknownRepresentation (value : Text)
  /-- A listing was asked for in a width that holds no column. -/
  | unusableWidth
  /-- Renderers that ask one another filled the stack. -/
  | endlessRendering
  /-- A renderer worked on an argument that was not given. -/
  | absentArgument
  /-- A renderer gave up for a reason of its own. -/
  | failure (reason : Text)
  deriving DecidableEq

namespace Fault

/-- The wording of a fault. -/
def message : Fault → Text
  | parse fault => fault.cause.message
  | missingTable representation table true =>
    representation.name ++ " has no table '" ++ table ++ "'"
  | missingTable representation table false =>
    "no " ++ representation.name ++ " tables installed (looking for '" ++ table ++ "')"
  | missingKey representation table key =>
    representation.name ++ " table '" ++ table ++ "' has no key '" ++ key ++ "'"
  | unknownGroup _ reason => reason
  | unknownKey _ _ reason => reason
  | invalidArgument _ reason => reason
  | unknownRepresentation value =>
    "Invalid representation \"" ++ value ++ "\". Use plain, unicode, html, or latex"
  | unusableWidth => "Invalid array length"
  | endlessRendering => "Maximum call stack size exceeded"
  | absentArgument => "Cannot read properties of undefined (reading 'trim')"
  | failure reason => reason

/-- What a person is told about a fault: the place in the source if there is one, and the cause. -/
def description : Fault → Text
  | parse fault => fault.report
  | fault => fault.message

/-- A call of a group that the representation does not have. -/
def noGroup (representation : Representation) (group : Text) : Fault :=
  .unknownGroup group ("no " ++ representation.name ++ " renderer '" ++ group ++ "'")

/-- A lookup in a table that is not installed. -/
def noTable (representation : Representation) (table : Text) : Fault :=
  .unknownGroup table ("no " ++ representation.name ++ " table '" ++ table ++ "'")

/-- A lookup of a key that the table lacks. -/
def noEntry (representation : Representation) (table key : Text) : Fault :=
  .unknownKey table key
    (representation.name ++ " encoding table '" ++ table ++ "' has no key '" ++ key ++ "'")

end Fault

/-- The representation that a name in any case means. -/
def Representation.resolve (value : Text) : Except Fault Representation :=
  match read? value with
  | some r => .ok r
  | none => .error (.unknownRepresentation value)

/-- A name is resolved to the representation that it means. -/
theorem Representation.resolve_eq_ok_iff {value : Text} {r : Representation} :
    resolve value = .ok r ↔ read? value = some r := by
  unfold resolve
  cases read? value <;> simp

/-- A name that means no representation is refused with the name as it was given. -/
theorem Representation.resolve_eq_error_iff {value : Text} {fault : Fault} :
    resolve value = .error fault ↔
      read? value = none ∧ fault = .unknownRepresentation value := by
  unfold resolve
  cases read? value <;> simp [eq_comm]

end Sigil
