import Sigil.CommandLine.Arguments
import Sigil.Listing.Page
import Sigil.Renderings
import Sigil.Symbols.Physics
import Sigil.Symbols.StandardModel

/-!
# The command

The command prints lookup tables and expressions. It prints all or nothing: at the first failure
what it has prepared is dropped, and only the failure is reported.
-/

namespace Sigil.CommandLine

/-- Why the command failed. -/
inductive Failure where
  | arguments (fault : ArgumentFault)
  /-- No representation has the table. -/
  | tableNowhere (id : Text)
  | fault (fault : Fault)
  deriving DecidableEq

/-- What a person is told about a failure. -/
def Failure.description : Failure → Text
  | arguments f => f.message
  | tableNowhere id => "No table \"" ++ id ++ "\" is installed"
  | fault f => f.description

/-- The version of the command. -/
def version : Text := "0.1.0"

/-- The help page. -/
def helpPage : Text := Text.join "\n" [
  "Usage: notation <expression...> [options]",
  "",
  "Render notation such as \"H$sub(2)O\" or \"$greek(Delta)E\" as plain text,",
  "Unicode, HTML or LaTeX.",
  "",
  "Options:",
  "  --help             Show this help message",
  "  --version          Show version number",
  "  --format <fmt>     Output format: plain, unicode, html, latex, all (default: unicode)",
  "  --strict           Fail on unknown calls and keys instead of falling back",
  "  --list             List installed lookup tables",
  "  --table <id>       Print a lookup table",
  "  --ascii            Print table codes as ASCII escapes",
  "  --width <n>        Table width in columns (default: terminal width or 80)"]

/-- The representations of a format. -/
def Format.representations : Format → List Representation
  | one r => [r]
  | all => Representation.all

/-- The engine of the command: the built-in groups, physics and the Standard Model. -/
def engine (strict : Bool) : Engine :=
  let e := Engine.create strict
  let (e, _) := Symbols.physics.install e
  (Symbols.standardModel.install e).1

/-- One line for each table of the format's representations. -/
def tableLines (e : Engine) (format : Format) : List Text :=
  format.representations.flatMap fun r =>
    (e.registry.sectionOf r).tables.entries.map fun (id, table) =>
      r.name ++ ":" ++ id ++ "  " ++ table.description

/-- The listings of a table, one for each of the format's representations that it is asked for. -/
def listings (e : Engine) (a : Arguments) (terminal : Option Listing.Width) (id : Text) :
    Except Failure (List Text) := do
  let width := (a.width.map Listing.Width.ofNumber).orElse fun _ => terminal
  let representations := match a.format with
    | .one r => [r]
    | .all => Representation.all.filter fun r => e.registry.hasTable r id
  if representations = [] then .error (.tableNowhere id)
  else
    representations.mapM fun r =>
      (Listing.print e.registry r id ⟨a.ascii, width.getD .standard⟩).mapError .fault

/-- The block that the command prints for an expression. -/
def expressionBlock (e : Engine) (format : Format) (source : Text) : Except Fault Text :=
  match format with
  | .one r => e.parse r source
  | .all => do return (← Renderings.create e (some source)).describe

/-- Everything that the command prints for arguments that ask for tables or expressions. -/
def blocks (a : Arguments) (terminal : Option Listing.Width) : Except Failure (List Text) := do
  let e := engine a.strict
  let lines := if a.list then tableLines e a.format else []
  let pages ← match a.table with
    | some id => listings e a terminal id
    | none => .ok []
  let expressions ← (a.expressions.mapM (expressionBlock e a.format)).mapError .fault
  return lines ++ pages ++ expressions

/-- What the command prints, in blocks. The width of the terminal is known if it prints to one. -/
def output (args : List Text) (terminal : Option Listing.Width) : Except Failure (List Text) := do
  let a ← (Arguments.read args).mapError .arguments
  if a.help then return [helpPage]
  else if a.version then return [version]
  else blocks a terminal

/-- What a finished command leaves behind. -/
structure Outcome where
  stdout : Text
  stderr : Text
  exitCode : Nat
  deriving DecidableEq

/-- Run the command. -/
def run (args : List Text) (terminal : Option Listing.Width := none) : Outcome :=
  match output args terminal with
  | .ok blocks => ⟨blocks.flatMap fun block => block ++ [CodeUnit.newline], [], 0⟩
  | .error failure => ⟨[], failure.description ++ [CodeUnit.newline], 1⟩

end Sigil.CommandLine
