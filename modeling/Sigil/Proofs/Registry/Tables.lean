import Sigil.Backend.Group

/-!
# Lookups and installations

What a lookup of a renderer finds (`Registry.lookup_eq`), and which tables installing the table of a
group leaves alone. A lookup depends on the one table alone (`Registry.lookup_congr`), and
installing a table changes the tables under one id alone (`Registry.AgreesOff`).
-/

namespace Sigil

namespace Registry

/-- A lookup finds the code in the table, or is refused for want of the table or of the key. -/
theorem lookup_eq (reg : Registry) (r : Representation) (id key : Text) :
    reg.lookup r id key =
      match reg.table? r id with
      | none => .error (.noTable r id)
      | some table =>
        match table.mapping.get? key with
        | none => .error (.noEntry r id key)
        | some code => .ok code := by
  unfold lookup code Registry.table
  cases reg.table? r id with
  | none => rfl
  | some table =>
      simp only [bind, Except.bind]
      cases table.mapping.get? key <;> rfl

/-- A lookup that succeeds finds a code in a table. -/
theorem lookup_eq_ok_iff {reg : Registry} {r : Representation} {id key code : Text} :
    reg.lookup r id key = .ok code ↔
      ∃ table, reg.table? r id = some table ∧ table.mapping.get? key = some code := by
  rw [lookup_eq]
  cases htable : reg.table? r id with
  | none => simp
  | some table => cases hcode : table.mapping.get? key <;> simp [hcode]

/-- Lookups in one table are the same in two registries that have the same table there. -/
theorem lookup_congr {reg reg' : Registry} {r : Representation} {id : Text}
    (h : reg.table? r id = reg'.table? r id) : reg.lookup r id = reg'.lookup r id := by
  funext key
  rw [lookup_eq, lookup_eq, h]

/-! ## Registries that differ in one place -/

/-- Two registries hold the same marks, and the same tables in the same order except under one
id. -/
structure AgreesOff (id : Text) (reg reg' : Registry) : Prop where
  tables : ∀ r, (reg.sectionOf r).tables.erase id = (reg'.sectionOf r).tables.erase id
  marks : ∀ r, reg.marks r = reg'.marks r

variable {id : Text} {reg reg' : Registry}

theorem AgreesOff.refl (reg : Registry) : reg.AgreesOff id reg := ⟨fun _ => rfl, fun _ => rfl⟩

theorem AgreesOff.symm (h : reg.AgreesOff id reg') : reg'.AgreesOff id reg :=
  ⟨fun r => (h.tables r).symm, fun r => (h.marks r).symm⟩

theorem AgreesOff.trans {reg'' : Registry} (h : reg.AgreesOff id reg')
    (h' : reg'.AgreesOff id reg'') : reg.AgreesOff id reg'' :=
  ⟨fun r => (h.tables r).trans (h'.tables r), fun r => (h.marks r).trans (h'.marks r)⟩

theorem AgreesOff.table? (h : reg.AgreesOff id reg') (r : Representation) (id' : Text)
    (hid : id' ≠ id) : reg.table? r id' = reg'.table? r id' :=
  OrderedMap.get?_of_erase_eq (h.tables r) hid

/-- The same texts are marks. -/
theorem AgreesOff.isMark (h : reg.AgreesOff id reg') (r : Representation) :
    reg.isMark r = reg'.isMark r := by
  funext t
  rw [Registry.isMark, Registry.isMark, h.marks]

/-- Installing a table adds it to those of one representation. -/
theorem tables_install (reg : Registry) (r r' : Representation) (id : Text) (table : Table) :
    ((reg.install r id table).sectionOf r').tables =
      if r' = r then (reg.sectionOf r').tables.insert id table
      else (reg.sectionOf r').tables := by
  rw [install, sectionOf_insert]
  split
  · rename_i hr
    rw [hr]
  · rfl

/-- Installing a table changes what is under its id alone. -/
theorem agreesOff_install (reg : Registry) (r : Representation) (id : Text) (table : Table) :
    reg.AgreesOff id (reg.install r id table) := by
  refine ⟨fun r' => ?_, fun r' => (marks_install reg r r' id table).symm⟩
  rw [tables_install]
  split
  · rw [OrderedMap.erase_insert, if_pos rfl]
  · rfl

/-- Installing the same table in both keeps registries in agreement. -/
theorem AgreesOff.install (h : reg.AgreesOff id reg') (r : Representation) (id' : Text)
    (table : Table) : (reg.install r id' table).AgreesOff id (reg'.install r id' table) := by
  refine ⟨fun r' => ?_, fun r' => by rw [marks_install, marks_install, h.marks]⟩
  rw [tables_install, tables_install]
  split
  · exact OrderedMap.erase_insert_congr (h.tables r') id' table
  · exact h.tables r'

end Registry

/-! ## Installing the table of a group -/

namespace Definition

variable (d : Definition) {r r' : Representation}

/-- Installing the table of a group leaves the tables alone that are under other names or of other
representations. -/
theorem table?_install (reg : Registry) {id : Text} (h : ¬(r' = r ∧ id = d.name)) :
    (d.install r reg).table? r' id = reg.table? r' id := by
  unfold install
  split
  · rw [Registry.table?_install, if_neg h]
  · rfl

/-- Installing the table of a group leaves marks alone. -/
theorem marks_install (reg : Registry) : (d.install r reg).marks r' = reg.marks r' := by
  unfold install
  split
  · exact Registry.marks_install ..
  · rfl

/-- Installing the table of a group changes the tables under its name alone. -/
theorem agreesOff_install (r : Representation) (reg : Registry) :
    reg.AgreesOff d.name (d.install r reg) := by
  unfold install
  split
  · exact Registry.agreesOff_install reg r d.name _
  · exact .refl reg

/-- Installing the same table in both keeps registries in agreement. -/
theorem agreesOff_install_both {reg reg' : Registry} {id : Text} (h : reg.AgreesOff id reg')
    (r : Representation) : (d.install r reg).AgreesOff id (d.install r reg') := by
  unfold install
  split
  · exact h.install r d.name _
  · exact h

/-- Installing the table of a group mentions no representation that was not mentioned before, if
its own one was. -/
theorem representations_install {reg : Registry} (h : r ∈ reg.representations) :
    (d.install r reg).representations = reg.representations := by
  unfold install
  split
  · rw [Registry.representations_install, if_pos h]
  · rfl

/-- Installing the tables of several groups leaves every table alone under whose id the groups bring
none. -/
theorem table?_foldl_install (ds : List Definition) (reg : Registry) {id : Text}
    (h : ∀ d ∈ ds, r' = r ∧ id = d.name → d.mapping = none) :
    (ds.foldl (fun reg d => d.install r reg) reg).table? r' id = reg.table? r' id := by
  induction ds generalizing reg with
  | nil => rfl
  | cons d ds ih =>
      rw [List.forall_mem_cons] at h
      rw [List.foldl_cons, ih _ h.2]
      by_cases hplace : r' = r ∧ id = d.name
      · rw [install, h.1 hplace]
      · exact d.table?_install reg hplace

/-- When the tables of groups with different names are installed, every group has its own. -/
theorem table?_foldl_install_of_mem {ds : List Definition} (hnames : (ds.map name).Nodup)
    {d : Definition} (hd : d ∈ ds) {mapping : Mapping} (hmapping : d.mapping = some mapping)
    (reg : Registry) :
    (ds.foldl (fun reg d => d.install r reg) reg).table? r d.name =
      some ⟨d.description, mapping⟩ := by
  induction ds generalizing reg with
  | nil => cases hd
  | cons d' ds ih =>
      rw [List.map_cons, List.nodup_cons] at hnames
      rw [List.foldl_cons]
      rcases List.mem_cons.mp hd with rfl | hd
      · rw [table?_foldl_install ds, install, hmapping, Registry.table?_install, if_pos ⟨rfl, rfl⟩]
        rintro d' hd' ⟨-, hname⟩
        exact absurd (List.mem_map.mpr ⟨d', hd', hname.symm⟩) hnames.1
      · exact ih hnames.2 hd _

end Definition

end Sigil
