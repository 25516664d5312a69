import Sigil.CommandLine.Run
import Sigil.Proofs.Renderings.History

/-!
# The parts of the output

A command line asks for a list of tables, for the listings of a table, and for expressions. What each
part looks like is said here by the registry, the listings and the evaluation of an engine. The
command prepares every part as it is said (`listsTables_tableLines`, `listsTable_listings`,
`rendersAs_expressionBlock`).
-/

namespace Sigil.CommandLine

/-! ## The list of tables -/

/-- One line for each table of a representation, in the order in which they were installed. -/
def ListsTablesOf (reg : Registry) (r : Representation) (lines : List Text) : Prop :=
  List.Forall₂ (fun id line => ∃ table, reg.table? r id = some table ∧
    line = r.name ++ ":" ++ id ++ "  " ++ table.description) (reg.tableIds r) lines

/-- The lines of a list of tables. -/
inductive ListsTables (reg : Registry) : Format → List Text → Prop where
  | one {r : Representation} {lines : List Text} (h : ListsTablesOf reg r lines) :
      ListsTables reg (.one r) lines
  | all {plain unicode html latex : List Text} (hplain : ListsTablesOf reg .plain plain)
      (hunicode : ListsTablesOf reg .unicode unicode) (hhtml : ListsTablesOf reg .html html)
      (hlatex : ListsTablesOf reg .latex latex) :
      ListsTables reg .all (plain ++ unicode ++ html ++ latex)

theorem listsTablesOf_entries (reg : Registry) (r : Representation) :
    ListsTablesOf reg r ((reg.sectionOf r).tables.entries.map fun (id, table) =>
      r.name ++ ":" ++ id ++ "  " ++ table.description) := by
  rw [ListsTablesOf, Registry.tableIds, OrderedMap.keys, List.forall₂_map_left_iff,
    List.forall₂_map_right_iff, List.forall₂_same]
  rintro ⟨id, table⟩ hentry
  exact ⟨table, OrderedMap.mem_entries_iff.mp hentry, rfl⟩

/-- The command lists the tables of the representations that are asked for. -/
theorem listsTables_tableLines (e : Engine) (format : Format) :
    ListsTables e.registry format (tableLines e format) := by
  have hlines := listsTablesOf_entries e.registry
  cases format with
  | one r =>
      rw [tableLines, Format.representations, List.flatMap_singleton]
      exact .one (hlines r)
  | all =>
      simp only [tableLines, Format.representations, Representation.all, List.flatMap_cons,
        List.flatMap_nil, List.append_nil, ← List.append_assoc]
      exact .all (hlines .plain) (hlines .unicode) (hlines .html) (hlines .latex)

/-! ## The listings of a table -/

/-- How listings are printed: in the width that is asked for, else in that of the terminal, and in
eighty columns if there is none. -/
def listingStyle (a : Arguments) (terminal : Option Listing.Width) : Listing.Style where
  ascii := a.ascii
  width :=
    match a.width, terminal with
    | some number, _ => .ofNumber number
    | none, some width => width
    | none, none => .columns 80

/-- What comes of asking for the listings of a table. A representation that is asked for by name has
to have the table. Otherwise all that have it are listed, and one at least has to. -/
inductive ListsTable (reg : Registry) (style : Listing.Style) (id : Text) :
    Format → Except Failure (List Text) → Prop where
  | one {r : Representation} {page : Text} (h : Listing.print reg r id style = .ok page) :
      ListsTable reg style id (.one r) (.ok [page])
  | one_fault {r : Representation} {fault : Fault} (h : Listing.print reg r id style = .error fault) :
      ListsTable reg style id (.one r) (.error (.fault fault))
  | all {pages : List Text} (hsome : ∃ r, reg.hasTable r id = true)
      (h : List.Forall₂ (fun r page => Listing.print reg r id style = .ok page)
        ([Representation.plain, .unicode, .html, .latex].filter (reg.hasTable · id)) pages) :
      ListsTable reg style id .all (.ok pages)
  | nowhere (h : ∀ r, reg.hasTable r id = false) :
      ListsTable reg style id .all (.error (.tableNowhere id))
  | all_fault {before after : List Representation} {r : Representation} {fault : Fault}
      (hsplit : [Representation.plain, .unicode, .html, .latex].filter (reg.hasTable · id) =
        before ++ r :: after)
      (hbefore : ∀ r' ∈ before, ∃ page, Listing.print reg r' id style = .ok page)
      (h : Listing.print reg r id style = .error fault) :
      ListsTable reg style id .all (.error (.fault fault))

theorem mapError_eq_ok_iff {ε ε' α : Type} {f : ε → ε'} {x : Except ε α} {a : α} :
    x.mapError f = .ok a ↔ x = .ok a := by
  cases x <;> simp [Except.mapError]

theorem mapError_eq_error_iff {ε ε' α : Type} {f : ε → ε'} {x : Except ε α} {fault' : ε'} :
    x.mapError f = .error fault' ↔ ∃ fault, x = .error fault ∧ f fault = fault' := by
  cases x <;> simp [Except.mapError]

/-- The command prepares the listings that are asked for. -/
theorem listsTable_listings (e : Engine) (a : Arguments) (terminal : Option Listing.Width)
    (id : Text) :
    ListsTable e.registry (listingStyle a terminal) id a.format (listings e a terminal id) := by
  have hstyle : (⟨a.ascii, ((a.width.map Listing.Width.ofNumber).orElse fun _ => terminal).getD
      .standard⟩ : Listing.Style) = listingStyle a terminal := by
    cases hwidth : a.width <;> cases terminal <;> simp [listingStyle, hwidth, Listing.Width.standard]
  cases hformat : a.format with
  | one r =>
      simp only [listings, hformat, hstyle, List.cons_ne_nil, if_false, List.mapM_cons,
        List.mapM_nil]
      cases hpage : Listing.print e.registry r id (listingStyle a terminal) with
      | ok page => exact .one hpage
      | error fault => exact .one_fault hpage
  | all =>
      simp only [listings, hformat, hstyle]
      split
      · rename_i hnone
        refine .nowhere fun r => ?_
        have hr := List.filter_eq_nil_iff.mp hnone r (Representation.mem_all r)
        exact Bool.eq_false_iff.mpr hr
      · rename_i hsome
        cases hpages : (Representation.all.filter fun r => e.registry.hasTable r id).mapM fun r =>
            (Listing.print e.registry r id (listingStyle a terminal)).mapError Failure.fault with
        | ok pages =>
            obtain ⟨r, hr⟩ := List.exists_mem_of_ne_nil _ hsome
            refine .all ⟨r, (List.mem_filter.mp hr).2⟩ ?_
            exact (mapM_eq_ok_iff.mp hpages).imp fun r page => mapError_eq_ok_iff.mp
        | error failure =>
            obtain ⟨before, r, after, hsplit, hbefore, hfailure⟩ := mapM_eq_error_iff.mp hpages
            obtain ⟨fault, hfault, rfl⟩ := mapError_eq_error_iff.mp hfailure
            refine .all_fault hsplit (fun r' hr' => ?_) hfault
            obtain ⟨page, hpage⟩ := hbefore r' hr'
            exact ⟨page, mapError_eq_ok_iff.mp hpage⟩

/-! ## Expressions -/

/-- What an expression comes to by itself. In all representations it takes a line for each, in the
order of their names, and the first that fails decides the fault. -/
inductive RendersAs (e : Engine) (source : Text) : Format → Except Fault Text → Prop where
  | one (r : Representation) : RendersAs e source (.one r) (e.parse r source)
  | all {codes : PerRepresentation Text} (h : ∀ r, e.parse r source = .ok (codes.get r)) :
      RendersAs e source .all (.ok (Text.join "\n" [
        "html:    " ++ codes.html, "latex:   " ++ codes.latex,
        "plain:   " ++ codes.plain, "unicode: " ++ codes.unicode]))
  | all_fault {before after : List Representation} {r : Representation} {fault : Fault}
      (hsplit : [Representation.plain, .unicode, .html, .latex] = before ++ r :: after)
      (hbefore : ∀ r' ∈ before, ∃ code, e.parse r' source = .ok code)
      (h : e.parse r source = .error fault) : RendersAs e source .all (.error fault)

/-- The command renders an expression as the engine does. -/
theorem rendersAs_expressionBlock (e : Engine) (format : Format) (source : Text) :
    RendersAs e source format (expressionBlock e format source) := by
  cases format with
  | one r => exact .one r
  | all =>
      have houtcomes := Renderings.outcomes_eq e source
      have hunicode : Representation.resolve "unicode" = .ok .unicode := by decide
      have hblock : expressionBlock e .all source = (do
          let codes ← Renderings.render e source
          return (Renderings.mk codes .unicode).describe) := by
        rw [expressionBlock, Renderings.create, hunicode]
        cases hrender : Renderings.render e source <;>
          simp [Renderings.evaluate, hrender, bind, Except.bind, pure, Except.pure]
      rw [hblock]
      cases hrender : Renderings.render e source with
      | ok codes => exact .all (Renderings.parse_of_render hrender)
      | error fault =>
          rw [hrender] at houtcomes
          obtain ⟨before, r, after, hsplit, hbefore, hfault⟩ :=
            Renderings.outcomes_eq_error_iff.mp houtcomes
          exact .all_fault hsplit hbefore hfault

end Sigil.CommandLine
