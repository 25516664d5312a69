import Sigil.Listing.Escape
import Sigil.Listing.Layout
import Sigil.Registry

/-!
# Printed listings of a lookup table

A page has a title, a head, a rule under it, and the entries in rows. Widths count code points, and
marks take no column.
-/

namespace Sigil.Listing

/-- An entry as it is shown, with the number of columns that its code takes. -/
structure Entry where
  key : Text
  shown : Text
  width : Nat
  deriving DecidableEq

/-- How to print a listing. -/
structure Style where
  /-- Print ASCII only. -/
  ascii : Bool := false
  width : Width := .standard

/-- Show an entry. A code that begins with a mark gets a blank to stand on. -/
def Entry.of (reg : Registry) (r : Representation) (ascii : Bool) (key code : Text) : Entry :=
  if ascii then
    let shown := escape code
    ⟨key, shown, shown.length⟩
  else
    let shown : Text := if reg.startsWithMark r code then CodeUnit.space :: code else code
    ⟨key, shown, shown.width - reg.countMarks r shown⟩

/-- The greatest member of a list, and at least one. -/
def widest (widths : List Nat) : Nat := widths.foldl max 1

/-- A table ready to be printed. -/
structure Page where
  title : Text
  ascii : Bool
  entries : List Entry
  layout : Layout

namespace Page

/-- Lay an installed table out. -/
def of (reg : Registry) (r : Representation) (id : Text) (style : Style) : Except Fault Page := do
  let table ← reg.table r id
  let entries := table.mapping.entries.map fun (key, code) => Entry.of reg r style.ascii key code
  let keyWidth := widest (entries.map fun e => e.key.width)
  let codeWidth := widest (entries.map fun e => e.width)
  let room ← style.width.room (keyWidth + 1 + codeWidth)
  let title := "  Lookup Table: " ++ r.name ++ ":" ++ id ++ "  " ++ table.description
  return ⟨title, style.ascii, entries, .ofRoom room keyWidth codeWidth entries.length⟩

/-- A cell of a row: a key and a code that takes `width` columns, both filled up with blanks. -/
def cell (l : Layout) (key code : Text) (width : Nat) : Text :=
  key.padTo l.keyWidth key.width ++ CodeUnit.space :: code.padTo l.codeWidth width

/-- Cells side by side. -/
def row (l : Layout) (cells : List Text) : Text := Text.join (Text.spaces l.gap) cells

/-- The head of every column. -/
def head (p : Page) : Text :=
  let l := p.layout
  let key : Text := ("key" : Text).take l.keyWidth
  let code : Text := ("code" : Text).take l.codeWidth
  row l (List.replicate l.columns (cell l key code code.width))

/-- The rule under the head. -/
def rule (p : Page) : Text :=
  let l := p.layout
  let dash : CodeUnit := if p.ascii then 0x2D else 0x2014
  row l (List.replicate l.columns
    (cell l (List.replicate l.keyWidth dash) (List.replicate l.codeWidth dash) l.codeWidth))

/-- The entries in rows, each as long as the layout has columns except perhaps the last. -/
def rows (p : Page) : List (List Entry) :=
  let n := p.layout.columns
  (List.range ((p.entries.length + n - 1) / n)).map fun i => (p.entries.drop (i * n)).take n

/-- A printed row of entries. -/
def entryRow (p : Page) (entries : List Entry) : Text :=
  row p.layout (entries.map fun e => cell p.layout e.key e.shown e.width)

/-- The lines of a page with all their blanks. -/
def lines (p : Page) : List Text := p.title :: p.head :: p.rule :: p.rows.map p.entryRow

/-- The printed page. No line ends in blanks. -/
def text (p : Page) : Text := Text.join "\n" (p.lines.map Text.trimEnd)

end Page

/-- The listing of an installed table. -/
def print (reg : Registry) (r : Representation) (id : Text) (style : Style := {}) :
    Except Fault Text := do
  return (← Page.of reg r id style).text

end Sigil.Listing
