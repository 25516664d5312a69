import Sigil.Expression.Evaluation

/-!
# Expressions as trees

An expression is a list of pieces: literal text and calls whose arguments are lists of nodes. A tree
has a spelling, which escapes whatever would be read otherwise, and a value, which is computed from
the leaves up. A call that its target refuses has its arguments for a value.
-/

namespace Sigil

open CodeUnit

/-- A part of an argument: a unit of text or a call within the argument. -/
inductive Node where
  | unit (u : CodeUnit)
  | call (name : Text) (args : List (List Node))

/-- A top-level part of an expression. -/
inductive Piece where
  | literal (text : Text)
  | call (name : Text) (args : List (List Node))

/-! ## Spelling -/

/-- The unit has a meaning of its own inside an argument. -/
def CodeUnit.isSpecial (u : CodeUnit) : Bool :=
  u == backslash || u == dollar || u == comma || u == rightParen

mutual

/-- The source of a part of an argument. A special unit gets a backslash. -/
def Node.spell : Node → Text
  | .unit u => if u.isSpecial then [backslash, u] else [u]
  | .call name args => dollar :: (name ++ leftParen :: (Node.spellArguments args ++ [rightParen]))

/-- The source of the arguments of a call, with commas between them. -/
def Node.spellArguments : List (List Node) → Text
  | [] => []
  | arg :: [] => Node.spellArgument arg
  | arg :: arg' :: rest =>
    Node.spellArgument arg ++ comma :: Node.spellArguments (arg' :: rest)

/-- The source of an argument. -/
def Node.spellArgument : List Node → Text
  | [] => []
  | node :: rest => Node.spell node ++ Node.spellArgument rest

end

namespace Piece

/-- The source of a top-level part. In literal text a dollar sign gets a backslash. -/
def spell : Piece → Text
  | literal text => text.flatMap fun u => if u = dollar then [backslash, dollar] else [u]
  | call name args => Node.spell (.call name args)

/-- The source of an expression. -/
def spellAll (pieces : List Piece) : Text := pieces.flatMap spell

end Piece

/-! ## Value -/

/-- What a call renders to: its rendering, or the output text of its arguments if it is refused. -/
def Target.renderOrList (target : Target) (name : Text) (args : List Argument) : Text :=
  let texts := args.map Argument.text
  if target.known name then
    match target.invoke name (args.map Argument.key) texts with
    | .ok rendered => rendered
    | .error _ => Text.join " " texts
  else Text.join " " texts

mutual

/-- A part of an argument as lookup key and as output text. -/
def Node.value (target : Target) (escape : Text → Text) : Node → Argument
  | .unit u => ⟨[u], escape [u]⟩
  | .call name args =>
    let rendered := target.renderOrList name (Node.argumentValues target escape args)
    ⟨rendered, rendered⟩

/-- The arguments of a call, without those whose key is empty. -/
def Node.argumentValues (target : Target) (escape : Text → Text) : List (List Node) → List Argument
  | [] => []
  | arg :: rest =>
    let value := Node.argumentValue target escape arg
    let values := Node.argumentValues target escape rest
    if value.key = [] then values else value :: values

/-- An argument as lookup key and as output text. -/
def Node.argumentValue (target : Target) (escape : Text → Text) : List Node → Argument
  | [] => ⟨[], []⟩
  | node :: rest =>
    let value := Node.value target escape node
    let values := Node.argumentValue target escape rest
    ⟨value.key ++ values.key, value.text ++ values.text⟩

end

namespace Piece

/-- The fragment that a top-level part stands for. -/
def value (target : Target) (escape : Text → Text) : Piece → Fragment
  | literal text => ⟨.literal, escape text⟩
  | call name args => ⟨.call, (Node.value target escape (.call name args)).text⟩

/-- The fragments that an expression stands for. -/
def values (target : Target) (escape : Text → Text) (pieces : List Piece) : List Fragment :=
  pieces.map (value target escape)

/-! ## Well-formed trees -/

end Piece

mutual

/-- Calls have names, and no argument is empty. -/
def Node.wellFormed : Node → Bool
  | .unit _ => true
  | .call name args => name.isName && Node.wellFormedArguments args

/-- Every argument is well formed and has a part. -/
def Node.wellFormedArguments : List (List Node) → Bool
  | [] => true
  | arg :: rest =>
    !arg.isEmpty && Node.wellFormedArgument arg && Node.wellFormedArguments rest

/-- Every part of the argument is well formed. -/
def Node.wellFormedArgument : List Node → Bool
  | [] => true
  | node :: rest => Node.wellFormed node && Node.wellFormedArgument rest

end

namespace Piece

/-- The part is well formed by itself. -/
def wellFormed : Piece → Bool
  | literal text => !text.isEmpty
  | call name args => Node.wellFormed (.call name args)

/-- The second part may stand behind the first: literal text does not follow literal text, and a
backslash at the end of literal text does not meet the dollar sign of a call. -/
def mayPrecede : Piece → Piece → Bool
  | literal _, literal _ => false
  | literal text, call .. => text.getLast? != some backslash
  | call .., _ => true

/-- All parts are well formed and may stand next to one another, so that the spelling of the
expression reads as these parts. -/
def allWellFormed : List Piece → Bool
  | [] => true
  | [p] => p.wellFormed
  | p :: p' :: rest => p.wellFormed && p.mayPrecede p' && allWellFormed (p' :: rest)

end Piece

end Sigil
