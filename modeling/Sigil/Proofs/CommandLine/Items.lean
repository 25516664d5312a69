import Mathlib.Data.List.Forall2
import Sigil.CommandLine.Arguments
import Sigil.Proofs.Results
import Sigil.Proofs.Text.Case

/-!
# Command lines as lists of items

An item is spelled by one argument or by two (`Item.IsSpelled`), and a command line spells a list of
items if it is their spellings one after another (`IsCommandLine`). Exactly such command lines are
read, as the items that they spell (`readItems_eq_ok_iff`), and what they ask for is the summary of
these items (`Arguments.IsSummary`): each flag that occurs, the last value of each option, and the
expressions in order. So the order of items matters only among expressions and among values of one
option (`Item.Reorders`).
-/

namespace Sigil.CommandLine

variable {args args' : List Text} {items items' : List Item}

/-! ## Spelling -/

/-- The name by which a command line asks for a format. -/
def Format.name : Format → Text
  | one r => r.name
  | all => "all"

/-- The arguments that spell an item. -/
inductive Item.IsSpelled : Item → List Text → Prop where
  | help : IsSpelled .help ["--help"]
  | version : IsSpelled .version ["--version"]
  | strict : IsSpelled .strict ["--strict"]
  | list : IsSpelled .list ["--list"]
  | ascii : IsSpelled .ascii ["--ascii"]
  | format (format : Format) {value : Text} (hvalue : isOption value = false)
      (hname : value.IsInAnyCase format.name) : IsSpelled (.format format) ["--format", value]
  | table {id : Text} (hid : isOption id = false) : IsSpelled (.table id) ["--table", id]
  | width {value : Text} (hvalue : isOption value = false) (hne : value ≠ [])
      (hdigits : ∀ u ∈ value, u.isDigit = true) (hpos : 1 ≤ Text.decimalValue value) :
      IsSpelled (.width (Text.decimalValue value)) ["--width", value]
  | expression {source : Text} (hsource : isOption source = false) :
      IsSpelled (.expression source) [source]

/-- The command line is the spellings of the items, one after another. -/
def IsCommandLine (items : List Item) (args : List Text) : Prop :=
  ∃ spellings, List.Forall₂ Item.IsSpelled items spellings ∧ args = spellings.flatten

/-- A command line begins with the spelling of its first item. -/
theorem isCommandLine_cons_iff {item : Item} :
    IsCommandLine (item :: items) args ↔
      ∃ spelling rest, item.IsSpelled spelling ∧ IsCommandLine items rest ∧
        args = spelling ++ rest := by
  constructor
  · rintro ⟨_, _ | ⟨hspelled, hrest⟩, rfl⟩
    exact ⟨_, _, hspelled, ⟨_, hrest, rfl⟩, rfl⟩
  · rintro ⟨spelling, _, hspelled, ⟨spellings, hrest, rfl⟩, rfl⟩
    exact ⟨spelling :: spellings, .cons hspelled hrest, rfl⟩

/-! ## Reading what is spelled -/

/-- Flags look like options. -/
theorem flag?_eq_none {arg : Text} (h : isOption arg = false) : flag? arg = none := by
  unfold flag?
  rw [if_neg, if_neg, if_neg, if_neg, if_neg]
  all_goals
    intro harg
    rw [harg] at h
    cases h

/-- Options with a value look like options. -/
theorem valueReader?_eq_none {arg : Text} (h : isOption arg = false) :
    valueReader? arg = none := by
  unfold valueReader?
  rw [if_neg, if_neg, if_neg]
  all_goals
    intro harg
    rw [harg] at h
    cases h

/-- What is no option is read as an expression. -/
theorem readItems_expression {source : Text} (h : isOption source = false) (rest : List Text) :
    readItems (source :: rest) = (do return .expression source :: (← readItems rest)) := by
  simp only [readItems, flag?_eq_none h, valueReader?_eq_none h, h, Bool.false_eq_true, if_false]

/-- A flag is spelled by itself. -/
theorem isSpelled_of_flag? {arg : Text} {item : Item} (h : flag? arg = some item) :
    item.IsSpelled [arg] := by
  unfold flag? at h
  split at h
  · cases h
    subst arg
    exact .help
  split at h
  · cases h
    subst arg
    exact .version
  split at h
  · cases h
    subst arg
    exact .strict
  split at h
  · cases h
    subst arg
    exact .list
  split at h
  · cases h
    subst arg
    exact .ascii
  · cases h

/-- The name of a format is read in any case, and nothing else is. -/
theorem readFormat_eq_ok_iff {value : Text} {item : Item} :
    readFormat value = .ok item ↔
      ∃ format : Format, value.IsInAnyCase format.name ∧ item = .format format := by
  have hsmall : ∀ format : Format, ∀ u ∈ format.name, u.isPlainSmall = true := by
    intro format
    rw [← List.all_eq_true]
    cases format with
    | all => decide
    | one r => cases r <;> decide
  simp only [← Text.lower_eq_iff (hsmall _), readFormat]
  constructor
  · intro h
    split at h
    · cases h
      exact ⟨.all, by assumption, rfl⟩
    split at h
    · rename_i r hr
      cases h
      exact ⟨.one r, Representation.ofName?_eq_some_iff.mp hr, rfl⟩
    · cases h
  · rintro ⟨format, hname, rfl⟩
    rw [hname]
    cases format with
    | all => rfl
    | one r => cases r <;> rfl

/-- A width is read if it consists of digits that are not all zero. -/
theorem readWidth_eq_ok_iff {value : Text} {item : Item} :
    readWidth value = .ok item ↔
      (value ≠ [] ∧ (∀ u ∈ value, u.isDigit = true) ∧ 1 ≤ Text.decimalValue value) ∧
        item = .width (Text.decimalValue value) := by
  rw [readWidth, ← List.all_eq_true]
  constructor
  · intro h
    split at h
    · cases h
      exact ⟨by assumption, rfl⟩
    · cases h
  · rintro ⟨h, rfl⟩
    exact if_pos h

/-- An option is spelled together with its value. -/
theorem isSpelled_of_reader {arg value : Text} {item : Item}
    {reader : Text → Except ArgumentFault Item} (hreader : valueReader? arg = some reader)
    (hvalue : isOption value = false) (h : reader value = .ok item) :
    item.IsSpelled [arg, value] := by
  unfold valueReader? at hreader
  split at hreader
  · cases hreader
    subst arg
    obtain ⟨format, hname, rfl⟩ := readFormat_eq_ok_iff.mp h
    exact .format format hvalue hname
  split at hreader
  · cases hreader
    cases h
    subst arg
    exact .table hvalue
  split at hreader
  · cases hreader
    subst arg
    obtain ⟨⟨hne, hdigits, hpos⟩, rfl⟩ := readWidth_eq_ok_iff.mp h
    exact .width hvalue hne hdigits hpos
  · cases hreader

/-- The spelling of an item is read as the item, whatever follows it. -/
theorem Item.IsSpelled.readItems_append {item : Item} {spelling : List Text}
    (h : item.IsSpelled spelling) (rest : List Text) :
    readItems (spelling ++ rest) = (do return item :: (← readItems rest)) := by
  -- flags and the names of options are read by evaluation, and values as they are spelled
  cases h with
  | help | version | strict | list | ascii => rfl
  | format format hvalue hname =>
      have hread : readFormat _ = .ok (.format format) :=
        readFormat_eq_ok_iff.mpr ⟨format, hname, rfl⟩
      have hreader : valueReader? "--format" = some readFormat := rfl
      have hflag : flag? "--format" = none := rfl
      simp only [List.cons_append, List.nil_append, readItems, hflag, hreader, hvalue, hread,
        Bool.false_eq_true, if_false]
      rfl
  | table hid =>
      have hreader : valueReader? "--table" = some fun value => .ok (.table value) := rfl
      have hflag : flag? "--table" = none := rfl
      simp only [List.cons_append, List.nil_append, readItems, hflag, hreader, hid,
        Bool.false_eq_true, if_false]
      rfl
  | width hvalue hne hdigits hpos =>
      have hread : readWidth _ = _ := readWidth_eq_ok_iff.mpr ⟨⟨hne, hdigits, hpos⟩, rfl⟩
      have hreader : valueReader? "--width" = some readWidth := rfl
      have hflag : flag? "--width" = none := rfl
      simp only [List.cons_append, List.nil_append, readItems, hflag, hreader, hvalue, hread,
        Bool.false_eq_true, if_false]
      rfl
  | expression hsource => exact readItems_expression hsource rest

/-- A command line is read as the items that it spells. -/
theorem readItems_eq_ok_iff : readItems args = .ok items ↔ IsCommandLine items args := by
  constructor
  · intro h
    fun_induction readItems args generalizing items with
    | case1 =>
        cases h
        exact ⟨[], .nil, rfl⟩
    | case2 arg rest item hflag ih =>
        obtain ⟨others, hothers, hitems⟩ := bind_eq_ok_iff.mp h
        cases hitems
        exact isCommandLine_cons_iff.mpr ⟨_, rest, isSpelled_of_flag? hflag, ih hothers, rfl⟩
    | case3 | case4 | case6 => cases h
    | case5 arg _ reader hreader value rest hvalue ih =>
        obtain ⟨item, hitem, hrest⟩ := bind_eq_ok_iff.mp h
        obtain ⟨others, hothers, hitems⟩ := bind_eq_ok_iff.mp hrest
        cases hitems
        have hspelled := isSpelled_of_reader hreader (Bool.eq_false_iff.mpr hvalue) hitem
        exact isCommandLine_cons_iff.mpr ⟨_, rest, hspelled, ih hothers, rfl⟩
    | case7 arg rest _ _ hoption ih =>
        obtain ⟨others, hothers, hitems⟩ := bind_eq_ok_iff.mp h
        cases hitems
        have hspelled := Item.IsSpelled.expression (Bool.eq_false_iff.mpr hoption)
        exact isCommandLine_cons_iff.mpr ⟨_, rest, hspelled, ih hothers, rfl⟩
  · intro h
    induction items generalizing args with
    | nil =>
        obtain ⟨_, hnil, rfl⟩ := h
        cases hnil
        rfl
    | cons item items ih =>
        obtain ⟨spelling, rest, hspelled, hrest, rfl⟩ := isCommandLine_cons_iff.mp h
        rw [hspelled.readItems_append, ih hrest]
        rfl

/-! ## What items ask for -/

namespace Item

/-- The item alone gives the command something to print. -/
def asksForOutput : Item → Bool
  | help | version | list | table _ | expression _ => true
  | strict | ascii | format _ | width _ => false

/-- The format that the item asks for. -/
def format? : Item → Option Format
  | .format chosen => some chosen
  | _ => none

/-- The table that the item asks for. -/
def table? : Item → Option Text
  | .table id => some id
  | _ => none

/-- The width that the item asks for. -/
def width? : Item → Option Number
  | .width columns => some (.ofNat columns)
  | _ => none

/-- The source of an expression. -/
def expression? : Item → Option Text
  | .expression source => some source
  | _ => none

/-- The items are the same in another order, which is the same among expressions and among values
of one option. -/
structure Reorders (items items' : List Item) : Prop where
  perm : items.Perm items'
  formats : items.filterMap format? = items'.filterMap format?
  tables : items.filterMap table? = items'.filterMap table?
  widths : items.filterMap width? = items'.filterMap width?
  expressions : items.filterMap expression? = items'.filterMap expression?

end Item

namespace Arguments

/-- What some items set, and none resets, is set if one of them occurs. -/
theorem any_ofItems (field : Arguments → Bool) (sets : Item → Bool)
    (hadd : ∀ a item, field (add a item) = (field a || sets item)) (hstart : field {} = false)
    (items : List Item) : field (ofItems items) = items.any sets := by
  have hfold : ∀ (items : List Item) (a : Arguments),
      field (items.foldl add a) = (field a || items.any sets) := by
    intro items
    induction items with
    | nil => exact fun a => (Bool.or_false _).symm
    | cons item rest ih =>
        intro a
        rw [List.foldl_cons, ih, hadd, List.any_cons, Bool.or_assoc]
  rw [ofItems, hfold, hstart, Bool.false_or]

/-- A flag is set if it occurs. -/
theorem flag_ofItems (field : Arguments → Bool) {flag : Item}
    (hadd : ∀ a item, field (add a item) = (field a || item == flag))
    (hstart : field {} = false) (items : List Item) :
    field (ofItems items) = true ↔ flag ∈ items := by
  rw [any_ofItems field (· == flag) hadd hstart, List.any_beq', List.contains_iff_mem]

/-- There is something to print if one of the items asks for it. -/
theorem asksForOutput_ofItems (items : List Item) :
    (ofItems items).asksForOutput = true ↔ ∃ item ∈ items, item.asksForOutput = true := by
  rw [any_ofItems asksForOutput Item.asksForOutput _ rfl, List.any_eq_true]
  rintro a (_ | _) <;> simp [asksForOutput, Item.asksForOutput, add]

/-- What items replace or leave as it is comes from the last of them that replaces it. -/
theorem last_ofItems {β : Type} (field : Arguments → Option β) (pick : Item → Option β)
    (hadd : ∀ a item, field (add a item) = (pick item).or (field a)) (items : List Item) :
    field (ofItems items) = (items.filterMap pick).getLast?.or (field {}) := by
  have hfold : ∀ (items : List Item) (a : Arguments),
      field (items.foldl add a) = (items.filterMap pick).getLast?.or (field a) := by
    intro items
    induction items with
    | nil => exact fun _ => rfl
    | cons item rest ih =>
        intro a
        rw [List.foldl_cons, ih, hadd]
        cases hpick : pick item with
        | none => rw [List.filterMap_cons_none hpick, Option.none_or]
        | some b =>
            rw [List.filterMap_cons_some hpick, List.getLast?_cons]
            cases (rest.filterMap pick).getLast? <;> rfl
  exact hfold items {}

/-- Expressions are kept in order. -/
theorem expressions_ofItems (items : List Item) :
    (ofItems items).expressions = items.filterMap Item.expression? := by
  have hfold : ∀ (items : List Item) (a : Arguments),
      (items.foldl add a).expressions = a.expressions ++ items.filterMap Item.expression? := by
    intro items
    induction items with
    | nil => exact fun a => (List.append_nil _).symm
    | cons item rest ih =>
        intro a
        rw [List.foldl_cons, ih]
        cases item with
        | expression source => exact List.append_assoc ..
        | _ => rfl
  exact hfold items {}

/-- The arguments sum items up: each flag is set if it occurs, each option has the last of its
values, and the expressions are in order. -/
structure IsSummary (items : List Item) (a : Arguments) : Prop where
  help : a.help = true ↔ .help ∈ items
  version : a.version = true ↔ .version ∈ items
  strict : a.strict = true ↔ .strict ∈ items
  list : a.list = true ↔ .list ∈ items
  ascii : a.ascii = true ↔ .ascii ∈ items
  format : a.format = (items.filterMap Item.format?).getLast?.getD (.one .unicode)
  table : a.table = (items.filterMap Item.table?).getLast?
  width : a.width = (items.filterMap Item.width?).getLast?
  expressions : a.expressions = items.filterMap Item.expression?

/-- What items ask for sums them up. -/
theorem isSummary_ofItems (items : List Item) : IsSummary items (ofItems items) where
  help := flag_ofItems help (by rintro a (_ | _) <;> simp [add]) rfl items
  version := flag_ofItems version (by rintro a (_ | _) <;> simp [add]) rfl items
  strict := flag_ofItems strict (by rintro a (_ | _) <;> simp [add]) rfl items
  list := flag_ofItems list (by rintro a (_ | _) <;> simp [add]) rfl items
  ascii := flag_ofItems ascii (by rintro a (_ | _) <;> simp [add]) rfl items
  format := by
    have hlast := last_ofItems (fun a => some a.format) Item.format?
      (by rintro a (_ | _) <;> rfl) items
    rw [Option.or_some] at hlast
    exact Option.some.inj hlast
  table := (last_ofItems table Item.table? (by rintro a (_ | _) <;> rfl) items).trans Option.or_none
  width := (last_ofItems width Item.width? (by rintro a (_ | _) <;> rfl) items).trans Option.or_none
  expressions := expressions_ofItems items

/-- Items have one summary, whatever their order. -/
theorem IsSummary.unique {a a' : Arguments} (h : IsSummary items a) (h' : IsSummary items' a')
    (hreorders : Item.Reorders items items') : a = a' := by
  have hflag : ∀ {b b' : Bool} {item : Item}, (b = true ↔ item ∈ items) →
      (b' = true ↔ item ∈ items') → b = b' := by
    intro b b' item hb hb'
    exact Bool.eq_iff_iff.mpr (hb.trans (hreorders.perm.mem_iff.trans hb'.symm))
  have hhelp := hflag h.help h'.help
  have hversion := hflag h.version h'.version
  have hstrict := hflag h.strict h'.strict
  have hlist := hflag h.list h'.list
  have hascii := hflag h.ascii h'.ascii
  have hformat : a.format = a'.format := by rw [h.format, h'.format, hreorders.formats]
  have htable : a.table = a'.table := by rw [h.table, h'.table, hreorders.tables]
  have hwidth : a.width = a'.width := by rw [h.width, h'.width, hreorders.widths]
  have hexpressions : a.expressions = a'.expressions := by
    rw [h.expressions, h'.expressions, hreorders.expressions]
  obtain ⟨⟩ := a
  obtain ⟨⟩ := a'
  simp_all

/-- A command line is read if it spells items of which one asks for something to print. -/
theorem read_eq_ok_iff {a : Arguments} :
    read args = .ok a ↔ ∃ items, IsCommandLine items args ∧
      (∃ item ∈ items, item.asksForOutput = true) ∧ a = ofItems items := by
  rw [read, bind_eq_ok_iff]
  constructor
  · rintro ⟨items, hitems, h⟩
    dsimp only at h
    split at h
    · rename_i hasks
      cases h
      exact ⟨items, readItems_eq_ok_iff.mp hitems, (asksForOutput_ofItems items).mp hasks, rfl⟩
    · cases h
  · rintro ⟨items, hitems, hasks, rfl⟩
    exact ⟨items, readItems_eq_ok_iff.mpr hitems, if_pos ((asksForOutput_ofItems items).mpr hasks)⟩

/-- Command lines are read item by item. One is read exactly if it spells items of which one asks for
something to print, and what is read sums the items up. So it stays the same when the items are
reordered without changing the order of expressions and of the values of one option. -/
theorem read_sums_up_items (args : List Text) :
    ((∃ a, read args = .ok a) ↔
      ∃ items, IsCommandLine items args ∧ ∃ item ∈ items, item.asksForOutput = true) ∧
    (∀ a items, read args = .ok a → IsCommandLine items args → IsSummary items a) ∧
    ∀ items items' args', IsCommandLine items args → IsCommandLine items' args' →
      Item.Reorders items items' → read args' = read args := by
  have hread : ∀ {args items}, IsCommandLine items args → read args =
      if (ofItems items).asksForOutput then .ok (ofItems items) else .error .noExpression := by
    intro args items hitems
    rw [read, readItems_eq_ok_iff.mpr hitems]
    rfl
  refine ⟨⟨?_, ?_⟩, ?_, ?_⟩
  · rintro ⟨a, ha⟩
    obtain ⟨items, hitems, hasks, -⟩ := read_eq_ok_iff.mp ha
    exact ⟨items, hitems, hasks⟩
  · rintro ⟨items, hitems, hasks⟩
    exact ⟨_, read_eq_ok_iff.mpr ⟨items, hitems, hasks, rfl⟩⟩
  · intro a items ha hitems
    rw [hread hitems] at ha
    split at ha
    · cases ha
      exact isSummary_ofItems items
    · cases ha
  · intro items items' args' hitems hitems' hreorders
    have hsame := (isSummary_ofItems items).unique (isSummary_ofItems items') hreorders
    rw [hread hitems, hread hitems', hsame]

/-- Values in any case, a repeated option, and a width with a zero in front. The other command line
has its items in another order. -/
theorem read_sums_up_items_sample :
    let args : List Text :=
      ["--format", "HTML", "x", "--width", "040", "--format", "LaTeX", "--strict", "y"]
    let args' : List Text :=
      ["--strict", "x", "--format", "html", "y", "--format", "latex", "--width", "40"]
    let items : List Item := [.format (.one .html), .expression "x", .width 40,
      .format (.one .latex), .strict, .expression "y"]
    let items' : List Item := [.strict, .expression "x", .format (.one .html), .expression "y",
      .format (.one .latex), .width 40]
    IsCommandLine items args ∧ IsCommandLine items' args' ∧ Item.Reorders items items' ∧
      read args' = read args ∧ ∃ a, read args = .ok a ∧ IsSummary items a ∧
        a.format = .one .latex ∧ a.expressions = ["x", "y"] := by
  intro args args' items items'
  have hitems : IsCommandLine items args :=
    readItems_eq_ok_iff.mp (eq_ok_of_toOption (by decide +kernel))
  have hitems' : IsCommandLine items' args' :=
    readItems_eq_ok_iff.mp (eq_ok_of_toOption (by decide +kernel))
  have hreorders : Item.Reorders items items' := ⟨by decide, rfl, rfl, rfl, rfl⟩
  obtain ⟨hok, hsummary, hsame⟩ := read_sums_up_items args
  obtain ⟨a, ha⟩ := hok.mpr ⟨items, hitems, .expression "x", by decide, rfl⟩
  have ha' := hsummary a items ha hitems
  exact ⟨hitems, hitems', hreorders, hsame items items' args' hitems hitems' hreorders, a, ha, ha',
    ha'.format, ha'.expressions⟩

end Arguments

end Sigil.CommandLine
