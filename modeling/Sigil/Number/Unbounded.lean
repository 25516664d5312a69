import Sigil.Expression.Evaluation
import Sigil.Number.Binary64

/-!
# Numbers that may be infinite

An infinity is written with the infinity symbol of a representation, and every other number with a
formatter.
-/

namespace Sigil.Number

/-- Write a number out for a target. -/
def textIn (target : Target) (format : Number → Text) : Number → Except Fault Text
  | infinite false => target.parse "$math(inf)"
  | infinite true => target.parse "$math(-)$math(inf)"
  | number => .ok (format number)

end Sigil.Number
