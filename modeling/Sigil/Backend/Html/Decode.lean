import Sigil.Backend.Html

/-!
# Reading HTML text back

Text written in HTML is read back by turning line breaks, the four named references to special
characters and numeric references into what they stand for.
-/

namespace Sigil.Html

/-- What a complete tag or reference stands for. One of another kind stands for itself. -/
def decodeMarkup (markup : Text) : Text :=
  if markup = "<br>" then "\n"
  else if markup = "&lt;" then "<"
  else if markup = "&gt;" then ">"
  else if markup = "&amp;" then "&"
  else if markup = "&quot;" then "\""
  else if Text.startsWith "&#x" markup then
    Text.ofCodePoint (Text.hexValue (markup.drop 3).dropLast)
  else markup

/-- Read on, behind the beginning of a tag or reference if `pending` is not empty. -/
def decodeFrom (pending : Text) : Text → Text
  | [] => pending
  | u :: rest =>
    match pending with
    | [] => if u = 0x26 ∨ u = 0x3C then decodeFrom [u] rest else u :: decodeFrom [] rest
    | first :: _ =>
      if u = (if first = 0x26 then 0x3B else 0x3E) then
        decodeMarkup (pending ++ [u]) ++ decodeFrom [] rest
      else decodeFrom (pending ++ [u]) rest

/-- The text that a piece of HTML shows. -/
def decode (t : Text) : Text := decodeFrom [] t

end Sigil.Html
