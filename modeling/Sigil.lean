import Sigil.Backend.Html.Decode
import Sigil.Expression.Descent
import Sigil.Expression.Grammar
import Sigil.Expression.Tree
import Sigil.Main
import Sigil.Markdown.InlineRule
import Sigil.Number.Unbounded
import Sigil.Number.Written
import Sigil.Registry.History
import Sigil.Proofs.Expression.Acceptance
import Sigil.Proofs.Expression.Offsets
import Sigil.Proofs.Expression.Prefixes
import Sigil.Proofs.Expression.Preservation
import Sigil.Proofs.Expression.Reading
import Sigil.Proofs.Expression.Spelling
import Sigil.Proofs.Expression.Steps
import Sigil.Proofs.Expression.Strictness
import Sigil.Proofs.Html.Groups
import Sigil.Proofs.Html.Injection
import Sigil.Proofs.Html.Markup
import Sigil.Proofs.Text.CodePoints
import Sigil.Proofs.Text.WellFormed
import Sigil.Proofs.Text.Case
import Sigil.Proofs.Expression.WellFormed
import Sigil.Proofs.Expression.Concatenation
import Sigil.Proofs.Backend.WellFormed
import Sigil.Proofs.Backend.Concatenation
import Sigil.Proofs.Engine.WellFormed
import Sigil.Proofs.Engine.Groups
import Sigil.Proofs.Expression.Faults
import Sigil.Proofs.Engine.Faults
import Sigil.Proofs.Backend.Accord
import Sigil.Proofs.Backend.LastPass
import Sigil.Proofs.Backend.Visible
import Sigil.Proofs.Engine.Fractions
import Sigil.Proofs.Engine.Accord
import Sigil.Proofs.Engine.Symbols
import Sigil.Proofs.Occurrences
import Sigil.Proofs.Registry.History
import Sigil.Proofs.Engine.Independence
import Sigil.Proofs.Engine.Concatenation
import Sigil.Renderings.History
import Sigil.Proofs.Expression.CallLocality
import Sigil.Proofs.CommandLine.Arguments
import Sigil.Proofs.CommandLine.Items
import Sigil.Proofs.CommandLine.Run
import Sigil.Proofs.Listing.Escape
import Sigil.Proofs.Listing.Page
import Sigil.Proofs.Markdown.InlineRule
import Sigil.Proofs.Renderings.History
import Sigil.Proofs.Expression.Flaws
import Sigil.Proofs.Expression.WholeCall
import Sigil.Proofs.Expression.Routines
import Sigil.Proofs.Expression.Cursor
import Sigil.Proofs.Expression.Descent
import Sigil.Proofs.Expression.Nesting
import Sigil.Proofs.Latex.Marks
import Sigil.Proofs.Latex.Braces
import Sigil.Proofs.Engine.Nesting
import Sigil.Proofs.Latex.Nesting
import Sigil.Proofs.Html.Decoding
import Sigil.Proofs.Html.References
import Sigil.Proofs.Engine.Vocabulary
import Sigil.Proofs.Engine.Order
import Sigil.Proofs.Html.Tables
import Sigil.Proofs.Unicode.Digits
import Sigil.Proofs.Latex.Balance
import Sigil.Proofs.Expression.Invocations
import Sigil.Proofs.Engine.Characters
