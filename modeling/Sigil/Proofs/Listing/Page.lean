import Mathlib.Algebra.Order.Floor.Div
import Sigil.Listing.Page
import Sigil.Proofs.CommandLine.Arguments
import Sigil.Proofs.Listing.Escape
import Sigil.Proofs.Listing.Layout
import Sigil.Proofs.Text.CodePoints

/-!
# Pages are complete and aligned

A row puts cells side by side. If every key and every code is within the widths of the layout, the
cells of a row stand in columns (`Layout.aligns_row`). The entries of a page are within its widths
(`Page.IsOf.sits`), and its rows are the entries cut into pieces (`Page.rows_flatten`).

Marks take no column, so the widths of texts are told up to the code points of theirs that are
hidden in the codes they show.
-/

namespace Sigil.Listing

open CodeUnit

/-! ## Cells and rows -/

/-- The text takes `n` columns. The code points that are hidden in the entries it shows take
none. -/
def TakesColumns (hidden : Entry → Nat) (es : List Entry) (t : Text) (n : Nat) : Prop :=
  t.width = n + (es.map hidden).sum

namespace Entry

/-- The cell of an entry. -/
def cell (l : Layout) (e : Entry) : Text := Page.cell l e.key e.shown e.width

/-- The entry is within the widths of the layout, and its code is as wide as it says apart from
what is hidden in it. -/
structure Sits (l : Layout) (hidden : Nat) (e : Entry) : Prop where
  key_le : e.key.width ≤ l.keyWidth
  width_le : e.width ≤ l.codeWidth
  shown_width : e.shown.width = e.width + hidden

variable {l : Layout} {hidden : Nat} {e : Entry}

/-- Between the key and the code of a cell there are blanks, and there may be some behind it. -/
theorem cell_eq (l : Layout) (e : Entry) :
    e.cell l = e.key ++ Text.spaces (l.keyWidth - e.key.width + 1) ++
      (e.shown ++ Text.spaces (l.codeWidth - e.width)) := by
  simp only [cell, Page.cell, Text.padTo, Text.spaces, List.replicate_succ', List.append_assoc,
    List.cons_append, List.nil_append]

/-- The code of a cell stands one column behind the widest key. -/
theorem Sits.width_key (h : e.Sits l hidden) :
    (e.key ++ Text.spaces (l.keyWidth - e.key.width + 1)).width = l.keyWidth + 1 := by
  have hkey := h.key_le
  rw [Text.width_append_spaces]
  omega

/-- A cell takes the columns of a pair. -/
theorem Sits.width_cell (h : e.Sits l hidden) : (e.cell l).width = l.pair + hidden := by
  have hkey := h.key_le
  have hwidth := h.width_le
  have hshown := h.shown_width
  rw [cell_eq, Text.width_append_spaces_append _ (Nat.succ_pos _), Text.width_append_spaces,
    hshown, Layout.pair]
  omega

end Entry

/-- Of the texts between which a separator is put, each stands behind the ones before it, and each
of those has a separator behind it. -/
theorem exists_join_eq (separator t : Text) (before after : List Text) :
    ∃ back, Text.join separator (before ++ t :: after) =
      before.flatMap (· ++ separator) ++ t ++ back ∧ (after = [] → back = []) := by
  induction before with
  | nil =>
      cases after with
      | nil =>
          refine ⟨[], ?_, fun _ => rfl⟩
          rw [List.append_nil]
          exact List.intercalate_singleton
      | cons next rest =>
          refine ⟨separator ++ Text.join separator (next :: rest), ?_, nofun⟩
          show separator.intercalate (t :: next :: rest) = t ++ _
          rw [List.intercalate_cons_cons, List.append_assoc]
          rfl
  | cons first before ih =>
      obtain ⟨back, hback, hafter⟩ := ih
      refine ⟨back, ?_, hafter⟩
      have hcons : Text.join separator (first :: (before ++ t :: after)) =
          first ++ separator ++ Text.join separator (before ++ t :: after) := by
        cases before with
        | nil => exact List.intercalate_cons_cons
        | cons second before => exact List.intercalate_cons_cons
      rw [List.cons_append, hcons, hback, List.flatMap_cons]
      simp only [List.append_assoc]

namespace Layout

/-- The entries stand in columns on a line: behind what is shown of the ones before it, each has its
key at a multiple of the width of a pair with its gap, and its code one column behind the widest
key. -/
def Aligns (l : Layout) (hidden : Entry → Nat) (line : Text) (es : List Entry) : Prop :=
  ∀ before e after, es = before ++ e :: after →
    ∃ front gap back, line = front ++ e.key ++ Text.spaces gap ++ e.shown ++ back ∧
      TakesColumns hidden before front (before.length * (l.pair + l.gap)) ∧
      TakesColumns hidden before (front ++ e.key ++ Text.spaces gap)
        (before.length * (l.pair + l.gap) + (l.keyWidth + 1))

variable {l : Layout} {hidden : Entry → Nat} {es : List Entry}

/-- The entries shown side by side. -/
def row (l : Layout) (es : List Entry) : Text := Page.row l (es.map (Entry.cell l))

/-- What a row shows before a further cell. -/
def front (l : Layout) (es : List Entry) : Text :=
  es.flatMap fun e => e.cell l ++ Text.spaces l.gap

/-- Each cell of a row stands behind the cells before it. -/
theorem exists_row_eq (l : Layout) (before : List Entry) (e : Entry) (after : List Entry) :
    ∃ back, l.row (before ++ e :: after) = l.front before ++ e.cell l ++ back ∧
      (after = [] → back = []) := by
  obtain ⟨back, hback, hafter⟩ := exists_join_eq (Text.spaces l.gap) (e.cell l)
    (before.map (Entry.cell l)) (after.map (Entry.cell l))
  refine ⟨back, ?_, fun h => hafter (by rw [h]; rfl)⟩
  rw [row, Page.row, List.map_append, List.map_cons, hback, List.flatMap_map]
  rfl

/-- What a row shows before a further cell is that many pairs and gaps wide, whatever follows. -/
theorem width_front_append (hgap : 0 < l.gap) (hes : ∀ e ∈ es, e.Sits l (hidden e)) (t : Text) :
    (l.front es ++ t).width = es.length * (l.pair + l.gap) + (es.map hidden).sum + t.width := by
  induction es with
  | nil => simp [front]
  | cons e es ih =>
      have hcell := (hes e (List.mem_cons_self ..)).width_cell
      have hrest := ih fun e' he' => hes e' (List.mem_cons_of_mem _ he')
      have hfront : l.front (e :: es) ++ t =
          e.cell l ++ Text.spaces l.gap ++ (l.front es ++ t) := by
        simp only [front, List.flatMap_cons, List.append_assoc]
      rw [hfront, Text.width_append_spaces_append _ hgap, hcell, hrest, List.length_cons,
        List.map_cons, List.sum_cons, Nat.succ_mul]
      omega

theorem takesColumns_front (hgap : 0 < l.gap) (hes : ∀ e ∈ es, e.Sits l (hidden e)) :
    TakesColumns hidden es (l.front es) (es.length * (l.pair + l.gap)) := by
  have h := width_front_append hgap hes []
  rwa [List.append_nil] at h

/-- Entries within the widths of a layout stand in columns when they are shown side by side. -/
theorem aligns_row (hgap : 0 < l.gap) (hes : ∀ e ∈ es, e.Sits l (hidden e)) :
    l.Aligns hidden (l.row es) es := by
  intro before e after hsplit
  have hbefore : ∀ e ∈ before, e.Sits l (hidden e) := fun e he =>
    hes e (hsplit ▸ List.mem_append_left _ he)
  have he : e.Sits l (hidden e) :=
    hes e (hsplit ▸ List.mem_append_right _ (List.mem_cons_self ..))
  obtain ⟨back, hrow, -⟩ := exists_row_eq l before e after
  refine ⟨l.front before, l.keyWidth - e.key.width + 1,
    Text.spaces (l.codeWidth - e.width) ++ back, ?_, takesColumns_front hgap hbefore, ?_⟩
  · rw [hsplit, hrow, Entry.cell_eq]
    simp only [List.append_assoc]
  · rw [TakesColumns, List.append_assoc, width_front_append hgap hbefore, he.width_key]
    omega

/-- Entries shown side by side take the columns of a row. -/
theorem takesColumns_row (hgap : 0 < l.gap) (hes : ∀ e ∈ es, e.Sits l (hidden e))
    (hne : es ≠ []) :
    TakesColumns hidden es (l.row es) (l.rowWidth es.length) := by
  obtain ⟨before, last, rfl⟩ := List.eq_nil_or_concat es |>.resolve_left hne
  rw [List.concat_eq_append] at hes ⊢
  have hbefore : ∀ e ∈ before, e.Sits l (hidden e) := fun e he =>
    hes e (List.mem_append_left _ he)
  obtain ⟨back, hrow, hback⟩ := exists_row_eq l before last []
  rw [TakesColumns, hrow, hback rfl, List.append_nil, width_front_append hgap hbefore,
    (hes last (List.mem_append_right _ (List.mem_cons_self ..))).width_cell, rowWidth]
  simp only [List.length_append, List.length_singleton, Nat.add_sub_cancel, List.map_append,
    List.map_singleton, List.sum_append, List.sum_singleton, Nat.mul_add, Nat.succ_mul]
  omega

end Layout

/-! ## Entries as they are shown -/

namespace Entry

variable {reg : Registry} {r : Representation} {ascii : Bool}

/-- The code points of a shown code that take no column: the marks, unless they are spelled in
ASCII. -/
def hidden (reg : Registry) (r : Representation) (ascii : Bool) (e : Entry) : Nat :=
  if ascii then 0 else reg.countMarks r e.shown

/-- How an entry of a table is to be shown. -/
structure Shows (reg : Registry) (r : Representation) (ascii : Bool) (entry : Text × Text)
    (e : Entry) : Prop where
  key_eq : e.key = entry.1
  /-- In ASCII a code is spelled. -/
  shown_ascii : ascii = true → e.shown = escape entry.2
  /-- A code whose first code point is a mark has one blank to stand on. -/
  shown_mark : ascii = false →
    (∃ first rest, entry.2.characters = first :: rest ∧ reg.isMark r first = true) →
      e.shown = space :: entry.2
  /-- No other code has it. -/
  shown_other : ascii = false →
    (∀ first rest, entry.2.characters = first :: rest → reg.isMark r first = false) →
      e.shown = entry.2
  width_eq : e.shown.width = e.width + e.hidden reg r ascii

/-- The first code point of a text is a mark, or there is none that is. -/
theorem startsWithMark_iff {t : Text} :
    reg.startsWithMark r t = true ↔
      ∃ first rest, t.characters = first :: rest ∧ reg.isMark r first = true := by
  rw [Registry.startsWithMark]
  cases t.characters with
  | nil => exact ⟨nofun, nofun⟩
  | cons first rest =>
      constructor
      · exact fun h => ⟨first, rest, rfl, h⟩
      · intro h
        obtain ⟨_, _, heq, hmark⟩ := h
        cases heq
        exact hmark

/-- A text has no more marks than code points. -/
theorem countMarks_le (t : Text) : reg.countMarks r t ≤ t.width := by
  have h : t.characters.countP (reg.isMark r) ≤ t.characters.length := List.countP_le_length
  rwa [Text.characters, List.length_map] at h

/-- Entries are shown as they are to be. -/
theorem shows_of (reg : Registry) (r : Representation) (ascii : Bool) (key code : Text) :
    Shows reg r ascii (key, code) (of reg r ascii key code) := by
  cases ascii with
  | true =>
      exact ⟨rfl, fun _ => rfl, nofun, nofun,
        Text.width_of_ascii fun u hu => isAscii_of_isPrintable (isPrintable_of_mem_escape hu)⟩
  | false =>
      refine ⟨rfl, nofun, ?_, ?_, ?_⟩
      · intro _ hmark
        exact if_pos (startsWithMark_iff.mpr hmark)
      · intro _ hother
        refine if_neg fun hmark => ?_
        obtain ⟨first, rest, hcut, hfirst⟩ := startsWithMark_iff.mp hmark
        exact absurd hfirst (Bool.eq_false_iff.mp (hother first rest hcut))
      · exact (Nat.sub_add_cancel (countMarks_le _)).symm

end Entry

/-! ## The widest -/

/-- The number is the greatest of a list, or one if that is greater. -/
structure IsWidest (n : Nat) (widths : List Nat) : Prop where
  pos : 1 ≤ n
  le : ∀ width ∈ widths, width ≤ n
  mem : n = 1 ∨ n ∈ widths

theorem isWidest_widest (widths : List Nat) : IsWidest (widest widths) widths := by
  have hfold : ∀ (widths : List Nat) (m : Nat), m ≤ widths.foldl max m ∧
      (∀ width ∈ widths, width ≤ widths.foldl max m) ∧
      (widths.foldl max m = m ∨ widths.foldl max m ∈ widths) := by
    intro widths
    induction widths with
    | nil => exact fun m => ⟨Nat.le_refl m, nofun, .inl rfl⟩
    | cons width rest ih =>
        intro m
        obtain ⟨hstart, hrest, hmem⟩ := ih (max m width)
        refine ⟨Nat.le_trans (Nat.le_max_left ..) hstart, ?_, ?_⟩
        · intro width' hwidth
          rcases List.mem_cons.mp hwidth with rfl | hwidth
          · exact Nat.le_trans (Nat.le_max_right ..) hstart
          · exact hrest width' hwidth
        · rcases hmem with hmem | hmem
          · rcases Nat.le_total width m with hle | hle
            · exact .inl (hmem.trans (Nat.max_eq_left hle))
            · have hwidth : rest.foldl max (max m width) = width :=
                hmem.trans (Nat.max_eq_right hle)
              exact .inr (List.mem_cons.mpr (.inl hwidth))
          · exact .inr (List.mem_cons_of_mem _ hmem)
  obtain ⟨hpos, hle, hmem⟩ := hfold widths 1
  exact ⟨hpos, hle, hmem⟩

/-! ## Pages -/

/-- A list cut into pieces of a length, as many as it takes, is the pieces one after another. -/
theorem flatten_pieces {α : Type} (n : Nat) {pieces : Nat} {l : List α}
    (h : l.length ≤ pieces * n) :
    ((List.range pieces).map fun i => (l.drop (i * n)).take n).flatten = l := by
  induction pieces generalizing l with
  | zero =>
      rw [Nat.zero_mul, Nat.le_zero, List.length_eq_zero_iff] at h
      rw [h]
      rfl
  | succ pieces ih =>
      have hrest : (l.drop n).length ≤ pieces * n := by
        rw [List.length_drop]
        rw [Nat.succ_mul] at h
        omega
      have hshift : ∀ i, l.drop (i.succ * n) = (l.drop n).drop (i * n) := by
        intro i
        rw [List.drop_drop, Nat.succ_mul, Nat.add_comm]
      rw [List.range_succ_eq_map, List.map_cons, List.map_map, List.flatten_cons, Nat.zero_mul,
        List.drop_zero]
      simp only [Function.comp_def, hshift]
      rw [ih hrest, List.take_append_drop]

namespace Page

variable {p : Page}

/-- There are as many rows as it takes. -/
theorem rows_length (p : Page) : p.rows.length = p.entries.length ⌈/⌉ p.layout.columns := by
  rw [rows, List.length_map, List.length_range, Nat.ceilDiv_eq_add_pred_div]

/-- The rows, one after another, are the entries. -/
theorem rows_flatten (hcolumns : 0 < p.layout.columns) : p.rows.flatten = p.entries := by
  refine flatten_pieces p.layout.columns ?_
  have hround := Nat.div_add_mod (p.entries.length + p.layout.columns - 1) p.layout.columns
  have hrest := Nat.mod_lt (p.entries.length + p.layout.columns - 1) hcolumns
  rw [Nat.mul_comm] at hround
  omega

/-- A row has an entry, and no more than the layout has columns. -/
theorem length_of_mem_rows (hcolumns : 0 < p.layout.columns) {row : List Entry}
    (h : row ∈ p.rows) : row ≠ [] ∧ row.length ≤ p.layout.columns := by
  obtain ⟨i, hi, rfl⟩ := List.mem_map.mp h
  have hstart : (i + 1) * p.layout.columns ≤ p.entries.length + p.layout.columns - 1 :=
    (Nat.le_div_iff_mul_le hcolumns).mp (List.mem_range.mp hi)
  rw [Nat.succ_mul] at hstart
  rw [← List.length_pos_iff, List.length_take, List.length_drop]
  exact ⟨by omega, Nat.min_le_left ..⟩

/-- Each column has a head and a rule under it, which are shown like an entry. -/
def headEntry (p : Page) : Entry :=
  let code : Text := ("code" : Text).take p.layout.codeWidth
  ⟨("key" : Text).take p.layout.keyWidth, code, code.width⟩

def ruleEntry (p : Page) : Entry :=
  let dash : CodeUnit := if p.ascii then 0x2D else 0x2014
  ⟨List.replicate p.layout.keyWidth dash, List.replicate p.layout.codeWidth dash,
    p.layout.codeWidth⟩

theorem head_eq (p : Page) :
    p.head = p.layout.row (List.replicate p.layout.columns p.headEntry) := by
  rw [Layout.row, List.map_replicate]
  rfl

theorem rule_eq (p : Page) :
    p.rule = p.layout.row (List.replicate p.layout.columns p.ruleEntry) := by
  rw [Layout.row, List.map_replicate]
  rfl

/-- The words of the head are cut to the widths of the layout. -/
theorem sits_headEntry (p : Page) : p.headEntry.Sits p.layout 0 := by
  have hword : ∀ (word : Text) (n : Nat), (∀ u ∈ word, u.isAscii = true) →
      Text.width (word.take n) ≤ n := by
    intro word n hword
    rw [Text.width_of_ascii fun u hu => hword u (List.mem_of_mem_take hu), List.length_take]
    exact Nat.min_le_left n _
  exact ⟨hword "key" _ (List.all_eq_true.mp rfl), hword "code" _ (List.all_eq_true.mp rfl), rfl⟩

theorem sits_ruleEntry (p : Page) : p.ruleEntry.Sits p.layout 0 := by
  have hdash : (if p.ascii then 0x2D else 0x2014 : CodeUnit).isLeading = false := by
    cases p.ascii with
    | true => rfl
    | false => rfl
  exact ⟨Nat.le_of_eq (Text.width_replicate hdash _), Nat.le_refl _,
    Text.width_replicate hdash _⟩

/-- What a page is laid out from. -/
structure IsOf (reg : Registry) (r : Representation) (table : Table) (style : Style) (p : Page) :
    Prop where
  entries_eq : p.entries =
    table.mapping.entries.map fun entry => Entry.of reg r style.ascii entry.1 entry.2
  layout_eq : p.layout = .ofRoom style.width.limit? (widest (p.entries.map fun e => e.key.width))
    (widest (p.entries.map fun e => e.width)) p.entries.length

variable {reg : Registry} {r : Representation} {id : Text} {table : Table} {style : Style}

/-- An installed table is laid out on every page that is not narrower than nothing. -/
theorem exists_isOf (htable : reg.table? r id = some table)
    (hwidth : style.width.isNonnegative = true) :
    ∃ p, of reg r id style = .ok p ∧ IsOf reg r table style p := by
  have hfound : reg.table r id = .ok table := by
    rw [Registry.table, htable]
  let entries := table.mapping.entries.map fun entry => Entry.of reg r style.ascii entry.1 entry.2
  let title := "  Lookup Table: " ++ r.name ++ ":" ++ id ++ "  " ++ table.description
  refine ⟨⟨title, style.ascii, entries, .ofRoom style.width.limit?
    (widest (entries.map fun e => e.key.width)) (widest (entries.map fun e => e.width))
    entries.length⟩, ?_, ⟨rfl, rfl⟩⟩
  rw [of, hfound]
  show (style.width.room _ >>= fun room => _) = _
  rw [Width.room_eq_ok hwidth]
  rfl

namespace IsOf

/-- The entries of the page are those of the table. -/
theorem shows (h : IsOf reg r table style p) :
    List.Forall₂ (Entry.Shows reg r style.ascii) table.mapping.entries p.entries := by
  rw [h.entries_eq, List.forall₂_map_right_iff, List.forall₂_same]
  exact fun entry _ => Entry.shows_of reg r style.ascii entry.1 entry.2

theorem length_entries (h : IsOf reg r table style p) :
    p.entries.length = table.mapping.entries.length := h.shows.length_eq.symm

theorem fits (h : IsOf reg r table style p) :
    p.layout.Fits table.mapping.entries.length style.width.limit? := by
  rw [h.layout_eq, h.length_entries]
  exact Layout.ofRoom_fits ..

/-- The layout is as wide as the widest key and the widest code. -/
theorem isWidest (h : IsOf reg r table style p) :
    IsWidest p.layout.keyWidth (p.entries.map fun e => e.key.width) ∧
      IsWidest p.layout.codeWidth (p.entries.map fun e => e.width) := by
  obtain ⟨hkey, hcode⟩ := Layout.ofRoom_widths style.width.limit?
    (widest (p.entries.map fun e => e.key.width)) (widest (p.entries.map fun e => e.width))
    p.entries.length
  rw [← h.layout_eq] at hkey hcode
  exact ⟨hkey ▸ isWidest_widest _, hcode ▸ isWidest_widest _⟩

/-- The entries of the page are within the widths of its layout. -/
theorem sits (h : IsOf reg r table style p) {e : Entry} (he : e ∈ p.entries) :
    e.Sits p.layout (e.hidden reg r style.ascii) := by
  obtain ⟨hkey, hcode⟩ := h.isWidest
  obtain ⟨entry, -, hentry⟩ := List.mem_map.mp (h.entries_eq ▸ he)
  exact ⟨hkey.le _ (List.mem_map_of_mem he), hcode.le _ (List.mem_map_of_mem he),
    hentry ▸ (Entry.shows_of reg r style.ascii entry.1 entry.2).width_eq⟩

theorem sits_of_mem_rows (h : IsOf reg r table style p) {row : List Entry} (hrow : row ∈ p.rows) :
    ∀ e ∈ row, e.Sits p.layout (e.hidden reg r style.ascii) := by
  intro e he
  refine h.sits ?_
  rw [← rows_flatten h.fits.columns_pos]
  exact List.mem_flatten_of_mem hrow he

end IsOf

/-! ## Every page -/

/-- The page is laid out to fit: its layout fits the width, it is as wide as the widest key and the
widest code, and no line of the grid takes more columns than the page or a single pair. -/
structure IsFitting (reg : Registry) (r : Representation) (table : Table) (style : Style)
    (p : Page) : Prop where
  shows : List.Forall₂ (Entry.Shows reg r style.ascii) table.mapping.entries p.entries
  fits : p.layout.Fits table.mapping.entries.length style.width.limit?
  keyWidth : IsWidest p.layout.keyWidth (p.entries.map fun e => e.key.width)
  codeWidth : IsWidest p.layout.codeWidth (p.entries.map fun e => e.width)
  head_le : ∀ width ∈ style.width.limit?, p.head.width ≤ max width p.layout.pair
  rule_le : ∀ width ∈ style.width.limit?, p.rule.width ≤ max width p.layout.pair
  row_le : ∀ width ∈ style.width.limit?, ∀ row ∈ p.rows, ∃ n ≤ max width p.layout.pair,
    TakesColumns (Entry.hidden reg r style.ascii) row (p.entryRow row) n

/-- The page shows every entry once, in order, and in columns. The head and the rule stand in the
columns of the entries, and nothing of theirs is hidden. -/
structure IsComplete (reg : Registry) (r : Representation) (table : Table) (style : Style)
    (p : Page) : Prop where
  lines_eq : p.lines = p.title :: p.head :: p.rule :: p.rows.map p.entryRow
  rows_length : p.rows.length = table.mapping.entries.length ⌈/⌉ p.layout.columns
  row_length : ∀ row ∈ p.rows, row ≠ [] ∧ row.length ≤ p.layout.columns
  shows : List.Forall₂ (Entry.Shows reg r style.ascii) table.mapping.entries p.rows.flatten
  aligns_head : p.layout.Aligns (fun _ => 0) p.head (.replicate p.layout.columns p.headEntry)
  aligns_rule : p.layout.Aligns (fun _ => 0) p.rule (.replicate p.layout.columns p.ruleEntry)
  aligns_row : ∀ row ∈ p.rows,
    p.layout.Aligns (Entry.hidden reg r style.ascii) (p.entryRow row) row

namespace IsOf

/-- A line that repeats one entry in every column is a full row. -/
theorem width_repeated (h : IsOf reg r table style p) {e : Entry} (he : e.Sits p.layout 0)
    {width : Nat} (hwidth : width ∈ style.width.limit?) :
    (p.layout.row (.replicate p.layout.columns e)).width ≤ max width p.layout.pair := by
  have hes : ∀ e' ∈ List.replicate p.layout.columns e, e'.Sits p.layout ((fun _ => 0) e') := by
    intro e' he'
    rw [List.eq_of_mem_replicate he']
    exact he
  have hne : List.replicate p.layout.columns e ≠ [] := by
    rw [Ne, List.replicate_eq_nil_iff]
    exact Nat.ne_of_gt h.fits.columns_pos
  have htakes := Layout.takesColumns_row h.fits.gap_pos hes hne
  rw [TakesColumns, List.length_replicate, List.map_replicate, List.sum_replicate_nat,
    Nat.mul_zero, Nat.add_zero] at htakes
  rw [htakes]
  exact h.fits.rowWidth_le width hwidth

theorem isFitting (h : IsOf reg r table style p) : IsFitting reg r table style p where
  shows := h.shows
  fits := h.fits
  keyWidth := h.isWidest.1
  codeWidth := h.isWidest.2
  head_le width hwidth := by
    rw [head_eq]
    exact h.width_repeated p.sits_headEntry hwidth
  rule_le width hwidth := by
    rw [rule_eq]
    exact h.width_repeated p.sits_ruleEntry hwidth
  row_le width hwidth row hrow := by
    obtain ⟨hne, hlength⟩ := length_of_mem_rows h.fits.columns_pos hrow
    exact ⟨p.layout.rowWidth row.length,
      Nat.le_trans (p.layout.rowWidth_mono hlength) (h.fits.rowWidth_le width hwidth),
      Layout.takesColumns_row h.fits.gap_pos (h.sits_of_mem_rows hrow) hne⟩

theorem isComplete (h : IsOf reg r table style p) : IsComplete reg r table style p where
  lines_eq := rfl
  rows_length := by rw [p.rows_length, h.length_entries]
  row_length row hrow := length_of_mem_rows h.fits.columns_pos hrow
  shows := by
    rw [rows_flatten h.fits.columns_pos]
    exact h.shows
  aligns_head := by
    rw [head_eq]
    exact Layout.aligns_row h.fits.gap_pos fun e he =>
      List.eq_of_mem_replicate he ▸ p.sits_headEntry
  aligns_rule := by
    rw [rule_eq]
    exact Layout.aligns_row h.fits.gap_pos fun e he =>
      List.eq_of_mem_replicate he ▸ p.sits_ruleEntry
  aligns_row row hrow := Layout.aligns_row h.fits.gap_pos (h.sits_of_mem_rows hrow)

end IsOf

end Page

variable {reg : Registry} {r : Representation} {id : Text} {table : Table} {style : Style}

/-- Whatever is in an installed table, and whatever the marks are, its listing is printed on every
page that is not narrower than nothing, and fits. Such is every width that a command line can ask
for. -/
theorem print_isFitting (htable : reg.table? r id = some table)
    (hwidth : style.width.isNonnegative = true) :
    (∃ p, Page.of reg r id style = .ok p ∧ print reg r id style = .ok p.text ∧
      p.IsFitting reg r table style) ∧
    ∀ args a, CommandLine.Arguments.read args = .ok a → ∀ number ∈ a.width,
      (Width.ofNumber number).isNonnegative = true := by
  constructor
  · obtain ⟨p, hp, hisOf⟩ := Page.exists_isOf htable hwidth
    exact ⟨p, hp, by rw [print, hp]; rfl, hisOf.isFitting⟩
  · intro args a hread number hnumber
    obtain ⟨columns, rfl⟩ := CommandLine.Arguments.exists_width hread hnumber
    exact Width.isNonnegative_ofNat columns

/-- A table with a code that is a mark. -/
def accents : Table :=
  ⟨"accents", .ofStrings [("hat", "\u0302"), ("x", "x"), ("bold", "𝐀\u0302")]⟩

/-- The registry in which it is installed. -/
def accented : Registry :=
  (Registry.empty.setMarks .unicode ["\u0302"]).install .unicode "marks" accents

/-- The mark stands on a blank, and no line is wider than the page. -/
theorem print_isFitting_accented :
    accented.table? .unicode "marks" = some accents ∧ (Width.columns 18).isNonnegative = true ∧
    print accented .unicode "marks" ⟨false, .columns 18⟩ = .ok (Text.join "\n" [
      "  Lookup Table: unicode:marks  accents",
      "key  c      key  c",
      "———— —      ———— —",
      "hat   \u0302      x    x",
      "bold 𝐀\u0302"]) ∧
    ∃ p, Page.of accented .unicode "marks" ⟨false, .columns 18⟩ = .ok p ∧
      p.IsFitting accented .unicode accents ⟨false, .columns 18⟩ := by
  have htable : accented.table? .unicode "marks" = some accents := rfl
  have hwidth : (Width.columns 18).isNonnegative = true := rfl
  obtain ⟨p, hp, -, hfitting⟩ :=
    (@print_isFitting accented .unicode "marks" accents ⟨false, .columns 18⟩ htable hwidth).1
  exact ⟨htable, hwidth, by decide +kernel, p, hp, hfitting⟩

/-- The listing of an installed table is a title, a head, a rule, and rows that show every entry
once, in order, and in columns, on every page that is not narrower than nothing. -/
theorem print_isComplete (htable : reg.table? r id = some table)
    (hwidth : style.width.isNonnegative = true) :
    ∃ p, Page.of reg r id style = .ok p ∧
      print reg r id style = .ok (Text.join "\n" (p.lines.map Text.trimEnd)) ∧
      p.IsComplete reg r table style := by
  obtain ⟨p, hp, hisOf⟩ := Page.exists_isOf htable hwidth
  exact ⟨p, hp, by rw [print, hp]; rfl, hisOf.isComplete⟩

/-- In ASCII the mark is spelled, and one row is not full. -/
theorem print_isComplete_accented :
    accented.table? .unicode "marks" = some accents ∧ (Width.columns 50).isNonnegative = true ∧
    print accented .unicode "marks" ⟨true, .columns 50⟩ = .ok (Text.join "\n" [
      "  Lookup Table: unicode:marks  accents",
      "key  code                  key  code",
      "---- ----------------      ---- ----------------",
      "hat  \\u0302                x    x",
      "bold \\U0001d400\\u0302"]) ∧
    ∃ p, Page.of accented .unicode "marks" ⟨true, .columns 50⟩ = .ok p ∧
      p.IsComplete accented .unicode accents ⟨true, .columns 50⟩ := by
  have htable : accented.table? .unicode "marks" = some accents := rfl
  have hwidth : (Width.columns 50).isNonnegative = true := rfl
  obtain ⟨p, hp, -, hcomplete⟩ :=
    @print_isComplete accented .unicode "marks" accents ⟨true, .columns 50⟩ htable hwidth
  exact ⟨htable, hwidth, by decide +kernel, p, hp, hcomplete⟩

end Sigil.Listing
