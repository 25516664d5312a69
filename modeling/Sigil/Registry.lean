import Sigil.Fault
import Sigil.OrderedMap
import Sigil.Text.Numeral

/-!
# The registry of lookup tables

A registry holds, for each representation that has been mentioned, its lookup tables and its marks.
Installing a table or setting marks mentions a representation, and it stays mentioned when its last
table goes. Marks are codes that combine with the code before them and take no column of their own.
-/

namespace Sigil

/-- Codes by key, in the order in which the keys arrived. -/
abbrev Mapping := OrderedMap Text Text

/-- The mapping with the given keys and codes. -/
def Mapping.ofStrings (entries : List (String × String)) : Mapping :=
  .ofList (entries.map fun (key, code) => (Text.ofString key, Text.ofString code))

/-- What holds of all given keys and codes holds of the entries of their mapping. -/
theorem Mapping.forall_mem_ofStrings {entries : List (String × String)} {P : Text × Text → Prop}
    (h : ∀ entry ∈ entries, P (Text.ofString entry.1, Text.ofString entry.2)) :
    ∀ entry ∈ (ofStrings entries).entries, P entry := by
  intro entry hentry
  obtain ⟨given, hgiven, rfl⟩ := List.mem_map.mp (OrderedMap.mem_of_mem_entries_ofList hentry)
  exact h given hgiven

/-- The number that a key spells, if it is a numeral without leading zeros below the largest number
of 32 bits. -/
def Mapping.index? (key : Text) : Option Nat :=
  let n := Text.decimalValue key
  if key.all CodeUnit.isDigit ∧ key = Text.decimal n ∧ n < 0xFFFFFFFF then some n else none

/-- The mapping of a record. Its numbered fields come first in ascending order. -/
def Mapping.ofRecord (fields : List (Text × Text)) : Mapping :=
  let fields := (OrderedMap.ofList fields).entries
  let numbered := fields.filterMap fun field => (index? field.1).map (·, field)
  let named := fields.filter fun field => (index? field.1).isNone
  .ofList ((numbered.mergeSort fun a b => a.1 ≤ b.1).map Prod.snd ++ named)

/-- A lookup table: what it is about, and its codes. -/
structure Table where
  description : Text
  mapping : Mapping

/-- The tables and marks of one representation. -/
structure Section where
  tables : OrderedMap Text Table := {}
  marks : List Text := []

/-- The members of a list, each once, at the place of its first occurrence. -/
def distinct [DecidableEq α] : List α → List α
  | [] => []
  | a :: rest => a :: (distinct rest).filter (· ≠ a)

theorem mem_distinct [DecidableEq α] {a : α} {l : List α} : a ∈ distinct l ↔ a ∈ l := by
  induction l with
  | nil => simp [distinct]
  | cons b rest ih => by_cases h : a = b <;> simp [distinct, h, ih]

theorem nodup_distinct [DecidableEq α] (l : List α) : (distinct l).Nodup := by
  induction l with
  | nil => simp [distinct]
  | cons b rest ih => simpa [distinct] using ih.sublist List.filter_sublist

/-- The tables and marks of every representation mentioned so far. -/
structure Registry where
  sections : OrderedMap Representation Section := {}

namespace Registry

/-- The registry in which nothing is installed. -/
def empty : Registry := {}

instance : Inhabited Registry := ⟨empty⟩

/-- The tables and marks of a representation; none if it was never mentioned. -/
def sectionOf (reg : Registry) (r : Representation) : Section := (reg.sections.get? r).getD {}

/-! ## Changes -/

/-- Put a table under an id. A table that has the id already is replaced in its place. -/
def install (reg : Registry) (r : Representation) (id : Text) (table : Table) : Registry :=
  let s := reg.sectionOf r
  ⟨reg.sections.insert r { s with tables := s.tables.insert id table }⟩

/-- Remove the table under an id, if there is one. -/
def uninstall (reg : Registry) (r : Representation) (id : Text) : Registry :=
  match reg.sections.get? r with
  | some s => ⟨reg.sections.insert r { s with tables := s.tables.erase id }⟩
  | none => reg

/-- Remove the table under an id, and tell whether there was one. -/
def remove (reg : Registry) (r : Representation) (id : Text) : Bool × Registry :=
  match reg.sections.get? r with
  | some s =>
    (s.tables.contains id, ⟨reg.sections.insert r { s with tables := s.tables.erase id }⟩)
  | none => (false, reg)

/-- Replace the marks of a representation. -/
def setMarks (reg : Registry) (r : Representation) (marks : List Text) : Registry :=
  ⟨reg.sections.insert r { reg.sectionOf r with marks := distinct marks }⟩

/-! ## Tables -/

/-- The representations mentioned so far, in the order of their first mention. -/
def representations (reg : Registry) : List Representation := reg.sections.keys

/-- The representation was mentioned. -/
def hasRepresentation (reg : Registry) (r : Representation) : Bool := reg.sections.contains r

/-- The ids of the tables of a representation, in installation order. -/
def tableIds (reg : Registry) (r : Representation) : List Text := (reg.sectionOf r).tables.keys

/-- The table under an id, if there is one. -/
def table? (reg : Registry) (r : Representation) (id : Text) : Option Table :=
  (reg.sectionOf r).tables.get? id

/-- A table is installed under the id. -/
def hasTable (reg : Registry) (r : Representation) (id : Text) : Bool := (reg.table? r id).isSome

/-- The table under an id. -/
def table (reg : Registry) (r : Representation) (id : Text) : Except Fault Table :=
  match reg.table? r id with
  | some t => .ok t
  | none => .error (.missingTable r id (reg.hasRepresentation r))

/-- The code under a key of a table. -/
def code (reg : Registry) (r : Representation) (id key : Text) : Except Fault Text := do
  let t ← reg.table r id
  match t.mapping.get? key with
  | some code => .ok code
  | none => .error (.missingKey r id key)

/-- The code under a key of a table, for a call that cannot be rendered without it. -/
def lookup (reg : Registry) (r : Representation) (id key : Text) : Except Fault Text :=
  match reg.code r id key with
  | .error (.missingTable r id _) => .error (.noTable r id)
  | .error (.missingKey r id key) => .error (.noEntry r id key)
  | result => result

/-! ## Marks -/

/-- The marks of a representation, each once, in the order in which they were given. -/
def marks (reg : Registry) (r : Representation) : List Text := (reg.sectionOf r).marks

/-- The text is a mark. -/
def isMark (reg : Registry) (r : Representation) (t : Text) : Bool := (reg.marks r).contains t

/-- The number of code points of the text that are marks. -/
def countMarks (reg : Registry) (r : Representation) (t : Text) : Nat :=
  t.characters.countP (reg.isMark r)

/-- The first code point of the text is a mark. -/
def startsWithMark (reg : Registry) (r : Representation) (t : Text) : Bool :=
  t.characters.head?.any (reg.isMark r)

/-! ## Lookups after each change -/

theorem sectionOf_insert (reg : Registry) (r r' : Representation) (s : Section) :
    (⟨reg.sections.insert r s⟩ : Registry).sectionOf r' =
      if r' = r then s else reg.sectionOf r' := by
  simp only [sectionOf, OrderedMap.get?_insert]
  split <;> rfl

/-- Installing a table changes what is under its id alone. -/
theorem table?_install (reg : Registry) (r r' : Representation) (id id' : Text) (t : Table) :
    (reg.install r id t).table? r' id' =
      if r' = r ∧ id' = id then some t else reg.table? r' id' := by
  simp only [table?, install, sectionOf_insert]
  by_cases h : r' = r
  · subst h; simp [OrderedMap.get?_insert]
  · simp [h]

/-- Removing a table changes what is under its id alone. -/
theorem table?_uninstall (reg : Registry) (r r' : Representation) (id id' : Text) :
    (reg.uninstall r id).table? r' id' =
      if r' = r ∧ id' = id then none else reg.table? r' id' := by
  unfold uninstall
  split
  · rename_i s hs
    simp only [table?, sectionOf_insert]
    by_cases h : r' = r
    · subst h; simp [OrderedMap.get?_erase, sectionOf, hs]
    · simp [h]
  · rename_i hs
    by_cases h : r' = r
    · subst h; simp [table?, sectionOf, hs]; intro; rfl
    · simp [h]

/-- Removing a table leaves what uninstalling it leaves, and tells whether there was one. -/
theorem remove_eq (reg : Registry) (r : Representation) (id : Text) :
    reg.remove r id = (reg.hasTable r id, reg.uninstall r id) := by
  unfold remove uninstall hasTable table? sectionOf
  cases reg.sections.get? r with
  | some s => rfl
  | none => rfl

/-- Setting marks changes no table. -/
@[simp]
theorem table?_setMarks (reg : Registry) (r r' : Representation) (id : Text) (marks : List Text) :
    (reg.setMarks r marks).table? r' id = reg.table? r' id := by
  simp only [table?, setMarks, sectionOf_insert]
  by_cases h : r' = r
  · subst h; simp
  · simp [h]

/-- Setting marks replaces those of one representation. -/
theorem marks_setMarks (reg : Registry) (r r' : Representation) (marks : List Text) :
    (reg.setMarks r marks).marks r' = if r' = r then distinct marks else reg.marks r' := by
  simp only [Registry.marks, setMarks, sectionOf_insert]
  split <;> rfl

/-- Installing a table changes no marks. -/
@[simp]
theorem marks_install (reg : Registry) (r r' : Representation) (id : Text) (t : Table) :
    (reg.install r id t).marks r' = reg.marks r' := by
  simp only [marks, install, sectionOf_insert]
  by_cases h : r' = r
  · subst h; simp
  · simp [h]

/-- Removing a table changes no marks. -/
@[simp]
theorem marks_uninstall (reg : Registry) (r r' : Representation) (id : Text) :
    (reg.uninstall r id).marks r' = reg.marks r' := by
  unfold uninstall
  split
  · rename_i s hs
    simp only [marks, sectionOf_insert]
    by_cases h : r' = r
    · subst h; simp [sectionOf, hs]
    · simp [h]
  · rfl

/-- A table that is installed goes behind all others, or takes the place of the one it replaces. -/
theorem tableIds_install (reg : Registry) (r r' : Representation) (id : Text) (t : Table) :
    (reg.install r id t).tableIds r' =
      if r' = r ∧ id ∉ reg.tableIds r then reg.tableIds r ++ [id] else reg.tableIds r' := by
  simp only [tableIds, install, sectionOf_insert]
  by_cases h : r' = r
  · subst h
    by_cases hid : id ∈ (reg.sectionOf r').tables.keys <;> simp [OrderedMap.keys_insert, hid]
  · simp [h]

/-- Removing a table leaves the others in their order. -/
theorem tableIds_uninstall (reg : Registry) (r r' : Representation) (id : Text) :
    (reg.uninstall r id).tableIds r' =
      if r' = r then (reg.tableIds r).filter (· ≠ id) else reg.tableIds r' := by
  unfold uninstall
  split
  · rename_i s hs
    simp only [tableIds, sectionOf_insert]
    by_cases h : r' = r
    · simp [h, OrderedMap.keys_erase, sectionOf, hs]
    · simp [h]
  · rename_i hs
    by_cases h : r' = r
    · subst h; simp [tableIds, sectionOf, hs]; rfl
    · simp [h]

/-- Setting marks leaves all tables in their order. -/
@[simp]
theorem tableIds_setMarks (reg : Registry) (r r' : Representation) (marks : List Text) :
    (reg.setMarks r marks).tableIds r' = reg.tableIds r' := by
  simp only [tableIds, setMarks, sectionOf_insert]
  by_cases h : r' = r
  · subst h; simp
  · simp [h]

/-- The representation of a table that is installed has been mentioned. -/
theorem representations_install (reg : Registry) (r : Representation) (id : Text) (t : Table) :
    (reg.install r id t).representations =
      if r ∈ reg.representations then reg.representations else reg.representations ++ [r] :=
  OrderedMap.keys_insert ..

/-- Removing a table mentions no representation. -/
@[simp]
theorem representations_uninstall (reg : Registry) (r : Representation) (id : Text) :
    (reg.uninstall r id).representations = reg.representations := by
  unfold uninstall
  split
  · rename_i s hs
    have hr : r ∈ reg.sections.keys := OrderedMap.mem_keys_iff.mpr (by simp [hs])
    simp only [representations, OrderedMap.keys_insert, if_pos hr]
  · rfl

/-- The representation of marks that are set has been mentioned. -/
theorem representations_setMarks (reg : Registry) (r : Representation) (marks : List Text) :
    (reg.setMarks r marks).representations =
      if r ∈ reg.representations then reg.representations else reg.representations ++ [r] :=
  OrderedMap.keys_insert ..

end Registry

end Sigil
