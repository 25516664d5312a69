import Sigil.Number.Binary64
import Sigil.Representation
import Sigil.Text.Numeral

/-!
# Command line arguments

A command line is a list of items: flags, options with a value, and expressions. Reading goes from
left to right and stops at the first item that is malformed. A later option replaces an earlier one
of the same name, and a value never begins with two hyphens.
-/

namespace Sigil.CommandLine

/-- The representations to print. -/
inductive Format where
  | one (r : Representation)
  | all
  deriving DecidableEq

/-- One item of a command line. -/
inductive Item where
  | help
  | version
  | strict
  | list
  | ascii
  | format (format : Format)
  | table (id : Text)
  | width (columns : Nat)
  | expression (source : Text)
  deriving DecidableEq

/-- What is wrong with a command line. -/
inductive ArgumentFault where
  | missingValue (option : Text)
  | invalidFormat (value : Text)
  | invalidWidth (value : Text)
  | unknownOption (arg : Text)
  /-- There is nothing to print. -/
  | noExpression
  deriving DecidableEq

/-- The wording of a fault. -/
def ArgumentFault.message : ArgumentFault → Text
  | missingValue option => option ++ " requires a value"
  | invalidFormat value =>
    "Invalid format \"" ++ value ++ "\". Use plain, unicode, html, latex, or all"
  | invalidWidth value => "Invalid width \"" ++ value ++ "\". Use a positive integer"
  | unknownOption arg => "Unknown option \"" ++ arg ++ "\""
  | noExpression => "No expression specified"

/-- The argument looks like an option. -/
def isOption (arg : Text) : Bool := Text.startsWith "--" arg

/-- The flag that an argument is. -/
def flag? (arg : Text) : Option Item :=
  if arg = "--help" then some .help
  else if arg = "--version" then some .version
  else if arg = "--strict" then some .strict
  else if arg = "--list" then some .list
  else if arg = "--ascii" then some .ascii
  else none

/-- Read the name of a format, in any case. -/
def readFormat (value : Text) : Except ArgumentFault Item :=
  let name := value.lower
  if name = "all" then .ok (.format .all)
  else match Representation.ofName? name with
    | some r => .ok (.format (.one r))
    | none => .error (.invalidFormat name)

/-- Read a positive number of columns in decimal digits. -/
def readWidth (value : Text) : Except ArgumentFault Item :=
  if value ≠ [] ∧ value.all CodeUnit.isDigit ∧ 1 ≤ Text.decimalValue value then
    .ok (.width (Text.decimalValue value))
  else .error (.invalidWidth value)

/-- How to read the value of the option that an argument is. -/
def valueReader? (arg : Text) : Option (Text → Except ArgumentFault Item) :=
  if arg = "--format" then some readFormat
  else if arg = "--table" then some fun value => .ok (.table value)
  else if arg = "--width" then some readWidth
  else none

/-- Read the items of a command line. -/
def readItems : List Text → Except ArgumentFault (List Item)
  | [] => .ok []
  | arg :: rest =>
    match flag? arg with
    | some item => do return item :: (← readItems rest)
    | none =>
      match valueReader? arg with
      | some reader =>
        match rest with
        | [] => .error (.missingValue arg)
        | value :: rest =>
          if isOption value then .error (.missingValue arg)
          else do
            let item ← reader value
            return item :: (← readItems rest)
      | none =>
        if isOption arg then .error (.unknownOption arg)
        else do return .expression arg :: (← readItems rest)

/-- What a command line asks for. -/
structure Arguments where
  help : Bool := false
  version : Bool := false
  expressions : List Text := []
  format : Format := .one .unicode
  strict : Bool := false
  list : Bool := false
  table : Option Text := none
  ascii : Bool := false
  width : Option Number := none
  deriving DecidableEq

namespace Arguments

/-- Take one item into account. -/
def add (a : Arguments) : Item → Arguments
  | .help => { a with help := true }
  | .version => { a with version := true }
  | .strict => { a with strict := true }
  | .list => { a with list := true }
  | .ascii => { a with ascii := true }
  | .format format => { a with format }
  | .table id => { a with table := some id }
  | .width columns => { a with width := some (Number.ofNat columns) }
  | .expression source => { a with expressions := a.expressions ++ [source] }

/-- What a list of items asks for. -/
def ofItems (items : List Item) : Arguments := items.foldl add {}

/-- There is something to print. -/
def asksForOutput (a : Arguments) : Bool :=
  a.help || a.version || a.list || a.table.isSome || !a.expressions.isEmpty

/-- Read a command line. -/
def read (args : List Text) : Except ArgumentFault Arguments := do
  let a := ofItems (← readItems args)
  if a.asksForOutput then .ok a else .error .noExpression

end Arguments

end Sigil.CommandLine
