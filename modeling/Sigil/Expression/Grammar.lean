import Sigil.Expression.Token

/-!
# The grammar of expressions

The texts that are expressions, given by rules alone. Inside an argument a backslash takes any unit
along; between calls it takes a dollar sign along and otherwise stands for itself.
-/

namespace Sigil.Grammar

open CodeUnit

mutual

/-- The text is a call. -/
inductive IsCall : Text → Prop where
  | mk {name args : Text} (hname : name.isName = true) (hargs : IsArguments args) :
      IsCall (dollar :: (name ++ leftParen :: (args ++ [rightParen])))

/-- The text is a list of arguments, any of which may be empty. -/
inductive IsArguments : Text → Prop where
  | last {arg : Text} (harg : IsArgument arg) : IsArguments arg
  | cons {arg rest : Text} (harg : IsArgument arg) (hrest : IsArguments rest) :
      IsArguments (arg ++ comma :: rest)

/-- The text is an argument. -/
inductive IsArgument : Text → Prop where
  | nil : IsArgument []
  | escape (u : CodeUnit) {rest : Text} (hrest : IsArgument rest) :
      IsArgument (backslash :: u :: rest)
  | call {call rest : Text} (hcall : IsCall call) (hrest : IsArgument rest) :
      IsArgument (call ++ rest)
  | unit (u : CodeUnit) {rest : Text} (hbackslash : u ≠ backslash) (hdollar : u ≠ dollar)
      (hcomma : u ≠ comma) (hparen : u ≠ rightParen) (hrest : IsArgument rest) :
      IsArgument (u :: rest)

end

/-- The text is an expression. -/
inductive IsExpression : Text → Prop where
  | nil : IsExpression []
  | escape {rest : Text} (hrest : IsExpression rest) : IsExpression (backslash :: dollar :: rest)
  | call {call rest : Text} (hcall : IsCall call) (hrest : IsExpression rest) :
      IsExpression (call ++ rest)
  | unit (u : CodeUnit) {rest : Text} (hdollar : u ≠ dollar)
      (hescape : u = backslash → rest.head? ≠ some dollar) (hrest : IsExpression rest) :
      IsExpression (u :: rest)

end Sigil.Grammar
