import Sigil.Expression.Evaluation
import Sigil.Registry

/-!
# Groups

A group is what a call names: a renderer, the number of arguments it takes, and a description. A
group may bring a lookup table of its own, which is installed under the group's name.
-/

namespace Sigil

/-- The number of arguments that a group takes. -/
inductive Arity where
  | exactly (n : Nat)
  | between (min max : Nat)
  deriving DecidableEq, Repr

namespace Arity

/-- The group takes this many arguments. -/
def accepts (arity : Arity) (count : Nat) : Bool :=
  match arity with
  | exactly n => count == n
  | between min max => min ≤ count && count ≤ max

/-- The wording of an arity. -/
def text : Arity → Text
  | exactly n => if n = 1 then "1 argument" else Text.decimal n ++ " arguments"
  | between min max => Text.decimal min ++ " to " ++ Text.decimal max ++ " arguments"

end Arity

/-- A call to be rendered: its group, and its arguments as lookup keys and as output text. -/
structure Invocation where
  group : Text
  keys : List Text
  texts : List Text

namespace Invocation

/-- What an argument that was not given reads as within a text. -/
def absent : Text := "undefined"

/-- The key of the first argument. -/
def key (call : Invocation) : Text := call.keys.getD 0 absent

/-- The output text of the first argument. -/
def text (call : Invocation) : Text := call.texts.getD 0 absent

/-- The output text of the second argument. -/
def secondText (call : Invocation) : Text := call.texts.getD 1 absent

/-- An argument without the blanks around it, which must have been given. -/
def trimmed (args : List Text) (i : Nat) : Except Fault Text :=
  match args[i]? with
  | some arg => .ok arg.trim
  | none => .error .absentArgument

theorem exists_mem_of_trimmed {args : List Text} {i : Nat} {t : Text}
    (h : trimmed args i = .ok t) : ∃ arg ∈ args, t = arg.trim := by
  unfold trimmed at h
  split at h
  · rename_i arg harg
    cases h
    exact ⟨arg, List.mem_of_getElem? harg, rfl⟩
  · cases h

/-- The key of the first argument without the blanks around it. -/
def trimmedKey (call : Invocation) : Except Fault Text := trimmed call.keys 0

/-- The key of the second argument without the blanks around it. -/
def trimmedSecondKey (call : Invocation) : Except Fault Text := trimmed call.keys 1

/-- The output text of the first argument without the blanks around it. -/
def trimmedText (call : Invocation) : Except Fault Text := trimmed call.texts 0

/-- The output text of the second argument without the blanks around it. -/
def trimmedSecondText (call : Invocation) : Except Fault Text := trimmed call.texts 1

end Invocation

/-- A group as a backend shows it to renderers. -/
structure Registration where
  description : Text
  arity : Arity
  /-- Render a call, which may name another group. -/
  render : Invocation → Except Fault Text

/-- What a renderer may ask a backend: what calls and expressions mean to it, and which groups it
has. -/
structure Peer where
  target : Target
  /-- The groups by name, in the order in which they were added. -/
  groups : List (Text × Registration)

/-- What a renderer works with. -/
structure Scope where
  registry : Registry
  /-- The representation of the backend that the renderer belongs to. -/
  representation : Representation
  /-- The backends of all representations, which a renderer may ask. -/
  peers : Representation → Peer

namespace Scope

/-- Write another expression out in the same representation. -/
def parse (scope : Scope) (source : Text) : Except Fault Text :=
  (scope.peers scope.representation).target.parse source

/-- The code under a key in a table of the representation. -/
def lookup (scope : Scope) (table key : Text) : Except Fault Text :=
  scope.registry.lookup scope.representation table key

/-- The codes of the single characters of a text, one after another. -/
def lookupEach (scope : Scope) (table text : Text) : Except Fault Text := do
  return (← text.characters.mapM (scope.lookup table)).flatten

end Scope

/-- A renderer turns a call into output. -/
abbrev Render := Scope → Invocation → Except Fault Text

namespace Render

/-- What is made of the group and the key of the argument, blanks around it ignored. -/
def ofKey (f : Scope → Text → Text → Except Fault Text) : Render := fun scope call => do
  f scope call.group (← call.trimmedKey)

/-- The code of the whole argument in the group's table. -/
def lookup : Render := ofKey Scope.lookup

/-- The codes of the argument's characters in the group's table. -/
def lookupEach : Render := ofKey Scope.lookupEach

/-- The argument's output text between two texts. -/
def enclose (front back : Text) : Render := fun _ call => .ok (front ++ call.text ++ back)

end Render

/-- What a call of a group means. -/
structure Group where
  render : Render
  description : Text
  arity : Arity

/-- A group to be added, with the table it brings. -/
structure Definition where
  name : Text
  description : Text
  render : Render := Render.lookup
  mapping : Option Mapping := none
  arity : Arity := .exactly 1

namespace Definition

/-- The group without its table. -/
def group (d : Definition) : Group := ⟨d.render, d.description, d.arity⟩

/-- Install the table that the group brings. -/
def install (d : Definition) (r : Representation) (reg : Registry) : Registry :=
  match d.mapping with
  | some mapping => reg.install r d.name ⟨d.description, mapping⟩
  | none => reg

end Definition

end Sigil
