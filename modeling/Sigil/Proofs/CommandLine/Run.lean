import Sigil.Proofs.CommandLine.Arguments
import Sigil.Proofs.CommandLine.Parts
import Sigil.Proofs.Engine.Stock

/-!
# The command prints all or nothing

A command line is printed part by part: the list of tables, the listings of a table, and the
expressions. If every part can be printed, the output is the parts one after another, and the part
of an expression is what a command prints that is asked for the expression alone
(`run_all_or_nothing`). Otherwise only the first failure is reported.
-/

namespace Sigil.CommandLine

/-! ## The engine of the command -/

/-- The glossaries of the command are installed without a fault, so its engine has all of them. -/
theorem install_engine (strict : Bool) :
    (Symbols.physics.install (Engine.create strict)).2 = none ∧
      (Symbols.standardModel.install
        (Symbols.physics.install (Engine.create strict)).1).2 = none := by
  obtain ⟨hname, hvisible⟩ := Engine.isVisible_glossaries Symbols.physics
    (List.mem_cons_self ..)
  obtain ⟨hname', hvisible'⟩ := Engine.isVisible_glossaries Symbols.standardModel
    (List.mem_cons_of_mem _ (List.mem_cons_self ..))
  have hbare : [] ∈ Engine.glossaryNames := List.mem_cons_self ..
  obtain ⟨hfault, hstocked⟩ := (Engine.isWellStocked_create strict default).install hname
    (hvisible [] hbare).1
  exact ⟨hfault, (hstocked.install hname' (hvisible' _ (hvisible [] hbare).2).1).1⟩

/-! ## Parts of the output -/

/-- A block as it is printed. -/
def printed (block : Text) : Text := block ++ [CodeUnit.newline]

/-- The list of tables, if it is asked for. -/
def tableList (a : Arguments) : List Text :=
  if a.list then tableLines (engine a.strict) a.format else []

/-- The listings of the table that is asked for. -/
def tablePages (a : Arguments) (terminal : Option Listing.Width) : Except Failure (List Text) :=
  match a.table with
  | some id => listings (engine a.strict) a terminal id
  | none => .ok []

variable {args : List Text} {a : Arguments} {terminal : Option Listing.Width}

/-- Both are prepared before the expressions are. -/
theorem blocks_eq (a : Arguments) (terminal : Option Listing.Width) :
    blocks a terminal = (do
      let pages ← tablePages a terminal
      let expressions ←
        (a.expressions.mapM (expressionBlock (engine a.strict) a.format)).mapError .fault
      return tableList a ++ pages ++ expressions) := by
  unfold blocks tablePages
  cases a.table with
  | none => rfl
  | some id => rfl

theorem blocks_of_ok {pages expressions : List Text} (hpages : tablePages a terminal = .ok pages)
    (hexpressions : a.expressions.mapM (expressionBlock (engine a.strict) a.format) =
      .ok expressions) :
    blocks a terminal = .ok (tableList a ++ pages ++ expressions) := by
  rw [blocks_eq, hpages, hexpressions]
  rfl

theorem blocks_of_pages_error {failure : Failure}
    (hpages : tablePages a terminal = .error failure) :
    blocks a terminal = .error failure := by
  rw [blocks_eq, hpages]
  rfl

theorem blocks_of_expressions_error {pages : List Text} {fault : Fault}
    (hpages : tablePages a terminal = .ok pages)
    (hexpressions : a.expressions.mapM (expressionBlock (engine a.strict) a.format) =
      .error fault) :
    blocks a terminal = .error (.fault fault) := by
  rw [blocks_eq, hpages, hexpressions]
  rfl

/-! ## Runs -/

theorem run_of_output_ok {blocks : List Text} (h : output args terminal = .ok blocks) :
    run args terminal = ⟨blocks.flatMap printed, [], 0⟩ := by
  rw [run, h]
  rfl

theorem run_of_output_error {failure : Failure} (h : output args terminal = .error failure) :
    run args terminal = ⟨[], printed failure.description, 1⟩ := by
  rw [run, h]
  rfl

theorem output_of_read_error {fault : ArgumentFault} (h : Arguments.read args = .error fault) :
    output args terminal = .error (.arguments fault) := by
  rw [output, h]
  rfl

/-- A command that is asked neither for help nor for its version prints what it is asked for. -/
theorem output_of_read (h : Arguments.read args = .ok a) (hhelp : a.help = false)
    (hversion : a.version = false) : output args terminal = blocks a terminal := by
  rw [output, h]
  show (if a.help = true then _ else if a.version = true then _ else blocks a terminal) = _
  rw [hhelp, hversion]
  rfl

/-- The outcome of a command that prints one result. -/
def reported : Except Fault Text → Outcome
  | .ok block => ⟨printed block, [], 0⟩
  | .error fault => ⟨[], printed fault.description, 1⟩

/-- A command that is asked for one expression alone prints its block, or reports the fault. -/
theorem run_alone (format : Format) (strict : Bool) {source : Text}
    (h : isOption source = false) (terminal : Option Listing.Width) :
    run (alone format strict source) terminal =
      reported (expressionBlock (engine strict) format source) := by
  have houtput : output (alone format strict source) terminal = _ :=
    output_of_read (Arguments.read_alone format strict h) rfl rfl
  cases hresult : expressionBlock (engine strict) format source with
  | ok block =>
      have hblocks : [source].mapM (expressionBlock (engine strict) format) = .ok [block] :=
        mapM_eq_ok_iff.mpr (.cons hresult .nil)
      rw [run_of_output_ok (houtput.trans (blocks_of_ok rfl hblocks))]
      show Outcome.mk ([block].flatMap printed) [] 0 = _
      rw [List.flatMap_singleton]
      rfl
  | error fault =>
      have hblocks : [source].mapM (expressionBlock (engine strict) format) = .error fault :=
        mapM_eq_error_iff.mpr ⟨[], source, [], rfl, List.forall_mem_nil _, hresult⟩
      rw [run_of_output_error (houtput.trans (blocks_of_expressions_error rfl hblocks))]
      rfl

/-- What the command prints when it is asked for one of the expressions alone, in the same format
and as strictly. -/
def single (a : Arguments) (terminal : Option Listing.Width) (source : Text) : Outcome :=
  run (alone a.format a.strict source) terminal

/-- What a command line asks for in front of its expressions: the lines of the list of tables, and
the listings of a table, or the failure that asking for them leads to. -/
structure AsksFor (a : Arguments) (terminal : Option Listing.Width) (lines : List Text)
    (pages : Except Failure (List Text)) : Prop where
  list : if a.list then ListsTables (engine a.strict).registry a.format lines else lines = []
  table : match a.table with
    | some id => ListsTable (engine a.strict).registry (listingStyle a terminal) id a.format pages
    | none => pages = .ok []

/-- The outcome is all or nothing. It is made of the list of tables, the listings of a table and the
outcomes of the expressions by themselves, or it is the first failure among them. -/
structure IsAllOrNothing (a : Arguments) (terminal : Option Listing.Width) (lines : List Text)
    (pages : Except Failure (List Text)) (o : Outcome) : Prop where
  /-- An expression alone is printed as the engine renders it, or the fault is reported. -/
  rendered : ∀ source ∈ a.expressions, ∃ result,
    RendersAs (engine a.strict) source a.format result ∧
      single a terminal source = reported result
  /-- All is printed in order. -/
  all : ∀ listings, pages = .ok listings →
    (∀ source ∈ a.expressions, (single a terminal source).exitCode = 0) →
    o = ⟨(lines ++ listings).flatMap printed ++
      a.expressions.flatMap fun source => (single a terminal source).stdout, [], 0⟩
  /-- A listing that fails is reported first. -/
  listing_failure : ∀ failure, pages = .error failure →
    o = ⟨[], printed failure.description, 1⟩
  /-- Otherwise the first expression that fails is reported as it is by itself. -/
  expression_failure : ∀ listings before source after, pages = .ok listings →
    a.expressions = before ++ source :: after →
    (∀ source ∈ before, (single a terminal source).exitCode = 0) →
    (single a terminal source).exitCode ≠ 0 → o = single a terminal source

/-- The command prepares what it is asked for. -/
theorem asksFor_tableList (a : Arguments) (terminal : Option Listing.Width) :
    AsksFor a terminal (tableList a) (tablePages a terminal) := by
  constructor
  · unfold tableList
    split
    · exact listsTables_tableLines _ _
    · rfl
  · unfold tablePages
    split
    · exact listsTable_listings _ _ _ _
    · rfl

/-- An expression on a command line is printed alone as its block, or its fault is reported. -/
theorem single_eq (h : Arguments.read args = .ok a) (terminal : Option Listing.Width)
    {source : Text} (hsource : source ∈ a.expressions) :
    single a terminal source = reported (expressionBlock (engine a.strict) a.format source) :=
  run_alone a.format a.strict (Arguments.not_isOption h hsource) terminal

/-- An expression that is printed alone has a block. -/
theorem exists_block_of_exitCode (h : Arguments.read args = .ok a) {source : Text}
    (hsource : source ∈ a.expressions) (hexit : (single a terminal source).exitCode = 0) :
    ∃ block, expressionBlock (engine a.strict) a.format source = .ok block ∧
      single a terminal source = ⟨printed block, [], 0⟩ := by
  rw [single_eq h terminal hsource] at hexit ⊢
  cases hresult : expressionBlock (engine a.strict) a.format source with
  | ok block => exact ⟨block, rfl, rfl⟩
  | error fault =>
      rw [hresult] at hexit
      exact absurd hexit Nat.one_ne_zero

/-- The blocks of expressions are printed as the expressions alone are. -/
theorem flatMap_printed_of_mapM {sources blocks : List Text}
    (hsources : ∀ source ∈ sources, ∃ block,
      expressionBlock (engine a.strict) a.format source = .ok block ∧
        single a terminal source = ⟨printed block, [], 0⟩)
    (h : sources.mapM (expressionBlock (engine a.strict) a.format) = .ok blocks) :
    blocks.flatMap printed = sources.flatMap fun source => (single a terminal source).stdout := by
  have hblocks : ∀ source block, source ∈ sources →
      expressionBlock (engine a.strict) a.format source = .ok block →
      (single a terminal source).stdout = printed block := by
    intro source block hsource hblock
    obtain ⟨block', hblock', hsingle⟩ := hsources source hsource
    rw [hblock] at hblock'
    cases hblock'
    rw [hsingle]
  rw [mapM_eq_ok_iff] at h
  clear hsources
  induction h with
  | nil => rfl
  | cons hblock _ ih =>
      rw [List.flatMap_cons, List.flatMap_cons, hblocks _ _ (List.mem_cons_self ..) hblock,
        ih fun source block hsource => hblocks source block (List.mem_cons_of_mem _ hsource)]

/-- A command of which no part fails prints the parts, and the expressions as they are printed
alone. -/
theorem run_of_all (h : Arguments.read args = .ok a) {pages : List Text}
    (houtput : output args terminal = blocks a terminal)
    (hpages : tablePages a terminal = .ok pages)
    (hexits : ∀ source ∈ a.expressions, (single a terminal source).exitCode = 0) :
    run args terminal = ⟨(tableList a ++ pages).flatMap printed ++
      a.expressions.flatMap fun source => (single a terminal source).stdout, [], 0⟩ := by
  have hsources := fun source hsource =>
    exists_block_of_exitCode h hsource (hexits source hsource)
  obtain ⟨expressions, hexpressions⟩ := exists_results_of_mapM fun source hsource =>
    let ⟨block, hblock, _⟩ := hsources source hsource
    ⟨block, hblock⟩
  rw [run_of_output_ok (houtput.trans (blocks_of_ok hpages hexpressions)), List.flatMap_append,
    flatMap_printed_of_mapM hsources hexpressions]

/-- A command reports the first expression that fails as it is reported alone. -/
theorem run_of_first_failure (h : Arguments.read args = .ok a) {pages before after : List Text}
    {source : Text} (houtput : output args terminal = blocks a terminal)
    (hpages : tablePages a terminal = .ok pages)
    (hsplit : a.expressions = before ++ source :: after)
    (hbefore : ∀ source ∈ before, (single a terminal source).exitCode = 0)
    (hexit : (single a terminal source).exitCode ≠ 0) :
    run args terminal = single a terminal source := by
  have hsource : source ∈ a.expressions :=
    hsplit ▸ List.mem_append_right _ (List.mem_cons_self ..)
  rw [single_eq h terminal hsource] at hexit ⊢
  obtain ⟨fault, hfault⟩ : ∃ fault,
      expressionBlock (engine a.strict) a.format source = .error fault := by
    cases hresult : expressionBlock (engine a.strict) a.format source with
    | ok block =>
        rw [hresult] at hexit
        exact absurd rfl hexit
    | error fault => exact ⟨fault, rfl⟩
  have hblocks : ∀ source' ∈ before, ∃ block,
      expressionBlock (engine a.strict) a.format source' = .ok block := by
    intro source' hsource'
    have hmem : source' ∈ a.expressions := hsplit ▸ List.mem_append_left _ hsource'
    obtain ⟨block, hblock, -⟩ := exists_block_of_exitCode h hmem (hbefore source' hsource')
    exact ⟨block, hblock⟩
  have hexpressions : a.expressions.mapM (expressionBlock (engine a.strict) a.format) =
      .error fault :=
    mapM_eq_error_iff.mpr ⟨before, source, after, hsplit, hblocks, hfault⟩
  rw [run_of_output_error (houtput.trans (blocks_of_expressions_error hpages hexpressions)), hfault]
  rfl

/-- A command line that cannot be read is reported and nothing is printed. Otherwise, unless help or
the version is asked for, all that is asked for is printed or nothing is, and no expression has a
part in what is printed for another. The list of tables is that of the registry, the listings are
those of the table, and an expression is printed as the engine renders it. -/
theorem run_all_or_nothing (args : List Text) (terminal : Option Listing.Width) :
    (∀ fault, Arguments.read args = .error fault →
      run args terminal = ⟨[], printed fault.message, 1⟩) ∧
    ∀ a, Arguments.read args = .ok a → a.help = false → a.version = false →
      ∃ lines pages, AsksFor a terminal lines pages ∧
        IsAllOrNothing a terminal lines pages (run args terminal) := by
  refine ⟨fun fault h => run_of_output_error (output_of_read_error h), ?_⟩
  intro a h hhelp hversion
  have houtput : output args terminal = blocks a terminal := output_of_read h hhelp hversion
  refine ⟨tableList a, tablePages a terminal, asksFor_tableList a terminal, ?_, ?_, ?_, ?_⟩
  · intro source hsource
    exact ⟨_, rendersAs_expressionBlock _ a.format source, single_eq h terminal hsource⟩
  · intro pages hpages hexits
    exact run_of_all h houtput hpages hexits
  · intro failure hpages
    exact run_of_output_error (houtput.trans (blocks_of_pages_error hpages))
  · intro pages before source after hpages hsplit hbefore hexit
    exact run_of_first_failure h houtput hpages hsplit hbefore hexit

/-- A list of tables, the listing of a table and two expressions are printed one after another. With
an expression in between that cannot be written, nothing is printed of any of them. -/
theorem run_all_or_nothing_sample :
    let args : List Text := ["--strict", "--format", "plain", "--list", "--table", "arabic",
      "H$sub(2)O", "$phy(h-bar)"]
    let a : Arguments := {
      expressions := ["H$sub(2)O", "$phy(h-bar)"]
      format := .one .plain
      strict := true
      list := true
      table := some "arabic" }
    let failing : List Text := ["--strict", "--format", "plain", "--list", "--table", "arabic",
      "H$sub(2)O", "$nosuch(x)", "$phy(h-bar)"]
    let b : Arguments := { a with expressions := ["H$sub(2)O", "$nosuch(x)", "$phy(h-bar)"] }
    Arguments.read args = .ok a ∧
    (∃ lines pages, AsksFor a none lines pages ∧ IsAllOrNothing a none lines pages (run args)) ∧
    Arguments.read failing = .ok b ∧
    (∃ lines pages, AsksFor b none lines pages ∧ IsAllOrNothing b none lines pages (run failing)) ∧
    run args = ⟨[
      Text.ofString "plain:arabic  Arabic digits 0-9",
      "plain:greek  Greek letters",
      "plain:math  math symbols",
      "plain:script  script capital letters",
      "plain:phy  physics symbols",
      "plain:sm  Standard Model symbols",
      "  Lookup Table: plain:arabic  Arabic digits 0-9",
      "k c      k c      k c      k c      k c      k c      k c      k c",
      "— —      — —      — —      — —      — —      — —      — —      — —",
      "0 0      1 1      2 2      3 3      4 4      5 5      6 6      7 7",
      "8 8      9 9",
      "H_2O",
      "h-bar"].flatMap printed, [], 0⟩ ∧
    run failing = ⟨[], "$nosuch(x)\n       ^\nplain call 'nosuch' not found\n", 1⟩ := by
  intro args a failing b
  have hread : Arguments.read args = .ok a := by decide
  have hfailing : Arguments.read failing = .ok b := by decide
  exact ⟨hread, (run_all_or_nothing args none).2 a hread rfl rfl, hfailing,
    (run_all_or_nothing failing none).2 b hfailing rfl rfl, by decide +kernel⟩

end Sigil.CommandLine
