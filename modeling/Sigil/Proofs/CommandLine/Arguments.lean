import Sigil.Proofs.CommandLine.Items

/-!
# What command lines ask for

An expression on a command line does not look like an option (`Arguments.not_isOption`), so it can
be asked for by itself in the same format and strictness (`Arguments.read_alone`). A width on it is
a natural number (`Arguments.exists_width`).
-/

namespace Sigil.CommandLine

variable {args : List Text}

/-- An item of a command line is spelled in it. -/
theorem IsCommandLine.exists_isSpelled {items : List Item} (h : IsCommandLine items args)
    {item : Item} (hitem : item ∈ items) : ∃ spelling, item.IsSpelled spelling := by
  obtain ⟨spellings, hspelled, -⟩ := h
  induction hspelled with
  | nil => cases hitem
  | cons hfirst _ ih =>
      rcases List.mem_cons.mp hitem with rfl | hitem
      · exact ⟨_, hfirst⟩
      · exact ih hitem

namespace Arguments

variable {a : Arguments}

/-- Expressions on a command line do not look like options. -/
theorem not_isOption (h : read args = .ok a) {source : Text} (hsource : source ∈ a.expressions) :
    isOption source = false := by
  obtain ⟨items, hitems, -, rfl⟩ := read_eq_ok_iff.mp h
  rw [expressions_ofItems, List.mem_filterMap] at hsource
  obtain ⟨item, hitem, hpick⟩ := hsource
  obtain ⟨spelling, hspelled⟩ := hitems.exists_isSpelled hitem
  cases hspelled with
  | expression hoption =>
      cases hpick
      exact hoption
  | _ => cases hpick

/-- A width on a command line is a natural number, rounded. -/
theorem exists_width (h : read args = .ok a) {number : Number} (hwidth : a.width = some number) :
    ∃ columns, number = Number.ofNat columns := by
  obtain ⟨items, -, -, rfl⟩ := read_eq_ok_iff.mp h
  rw [(isSummary_ofItems items).width] at hwidth
  obtain ⟨item, -, hpick⟩ := List.mem_filterMap.mp (List.mem_of_getLast? hwidth)
  cases item with
  | width columns =>
      cases hpick
      exact ⟨columns, rfl⟩
  | _ => cases hpick

end Arguments

/-! ## One expression by itself -/

/-- The name of a format is read as the format. -/
theorem isSpelled_format (format : Format) :
    (Item.format format).IsSpelled ["--format", format.name] := by
  refine .format format ?_ ?_
  · cases format with
    | all => rfl
    | one r => cases r <;> rfl
  · cases format with
    | all => rfl
    | one r => cases r <;> rfl

/-- The command line that asks for one expression. -/
def alone (format : Format) (strict : Bool) (source : Text) : List Text :=
  "--format" :: format.name :: if strict then ["--strict", source] else [source]

/-- An expression that does not look like an option can be asked for by itself. -/
theorem Arguments.read_alone (format : Format) (strict : Bool) {source : Text}
    (h : isOption source = false) :
    read (alone format strict source) = .ok { expressions := [source], format, strict } := by
  have hformat := isSpelled_format format
  have hsource : Item.IsSpelled (.expression source) [source] := .expression h
  cases strict with
  | false =>
      exact read_eq_ok_iff.mpr ⟨[.format format, .expression source],
        ⟨[_, _], .cons hformat (.cons hsource .nil), rfl⟩,
        ⟨.expression source, List.mem_of_getLast? rfl, rfl⟩, rfl⟩
  | true =>
      exact read_eq_ok_iff.mpr ⟨[.format format, .strict, .expression source],
        ⟨[_, _, _], .cons hformat (.cons .strict (.cons hsource .nil)), rfl⟩,
        ⟨.expression source, List.mem_of_getLast? rfl, rfl⟩, rfl⟩

end Sigil.CommandLine
