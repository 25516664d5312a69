import Sigil.Proofs.Engine.Groups

/-!
# New engines

A new engine has the tables of all built-in groups, whatever its registry held before
(`Engine.hasTables_create`), and no groups but these (`Backend.groups_standard`). All other tables
of the registry are as they were (`Engine.table?_create_of_not_brings`). A glossary leaves alone
what is built in, so that calls of the built-in groups are rendered as these are defined
(`Engine.invoke_builtIn`).
-/

namespace Sigil

/-- The tables of all built-in groups of a representation are installed. -/
def Registry.HasTables (reg : Registry) (r : Representation) : Prop :=
  ∀ d ∈ Backend.definitions r, ∀ mapping, d.mapping = some mapping →
    reg.table? r d.name = some ⟨d.description, mapping⟩

namespace Backend

/-- The names of the built-in groups, which are the same in all representations. -/
def builtInNames : List Text := ["arabic", "frac", "greek", "math", "script", "sub", "sup"]

theorem names_definitions (r : Representation) :
    (definitions r).map Definition.name = builtInNames := by
  cases r <;> rfl

theorem mem_builtInNames_iff (r : Representation) {name : Text} :
    name ∈ builtInNames ↔ ∃ d ∈ definitions r, d.name = name := by
  rw [← names_definitions r, List.mem_map]

theorem nodup_names_definitions (r : Representation) :
    ((definitions r).map Definition.name).Nodup := by
  rw [names_definitions]
  decide

/-- The groups of a standard backend are the built-in ones. -/
theorem groups_standard (r : Representation) (strict : Bool) :
    (standard r strict).groups = .ofList ((definitions r).map fun d => (d.name, d.group)) := by
  cases r <;> rfl

/-- A standard backend has every built-in group. -/
theorem get?_groups_standard {r : Representation} (strict : Bool) {d : Definition}
    (hd : d ∈ definitions r) : (standard r strict).groups.get? d.name = some d.group := by
  rw [groups_standard]
  refine OrderedMap.get?_ofList_of_mem ?_ (List.mem_map.mpr ⟨d, hd, rfl⟩)
  rw [List.map_map]
  exact nodup_names_definitions r

/-! ## Preparing a registry -/

/-- Preparing a representation changes no tables of others, except that HTML may bring the tables
for Unicode. -/
theorem table?_prepare_of_ne {r r' : Representation} (h : r' ≠ r)
    (hunicode : r = .html → r' ≠ .unicode) (reg : Registry) (id : Text) :
    (prepare r reg).table? r' id = reg.table? r' id := by
  have hinstall : ∀ (ds : List Definition) (r : Representation), r' ≠ r → ∀ reg : Registry,
      (ds.foldl (fun reg d => d.install r reg) reg).table? r' id = reg.table? r' id :=
    fun ds _ h reg => Definition.table?_foldl_install ds reg fun _ _ hand => absurd hand.1 h
  have hmarks : ∀ (reg : Registry) (r : Representation) (marks : List Text),
      (reg.setMarks r marks).table? r' id = reg.table? r' id :=
    fun reg r marks => Registry.table?_setMarks reg r r' id marks
  cases r with
  | plain => exact hinstall _ _ h reg
  | unicode | latex => exact (hmarks _ _ _).trans (hinstall _ _ h reg)
  | html =>
      refine (hinstall _ _ h _).trans ?_
      split
      · rfl
      · exact (hmarks _ _ _).trans (hinstall _ _ (hunicode rfl) reg)

/-- Preparing a representation installs its tables. -/
theorem hasTables_prepare (r : Representation) (reg : Registry) : (prepare r reg).HasTables r := by
  intro d hd mapping hmapping
  have hinstall := Definition.table?_foldl_install_of_mem (r := r) (nodup_names_definitions r) hd
    hmapping
  cases r with
  | plain => exact hinstall reg
  | unicode | latex => exact (Registry.table?_setMarks _ _ _ _ _).trans (hinstall reg)
  | html => exact hinstall _

/-- Preparing a representation takes no built-in table away. -/
theorem hasTables_prepare_of_hasTables {r r' : Representation} {reg : Registry}
    (h : reg.HasTables r') : (prepare r reg).HasTables r' := by
  by_cases hr : r' = r
  · exact hr ▸ hasTables_prepare r reg
  by_cases hunicode : r = .html ∧ r' = .unicode
  · obtain ⟨rfl, rfl⟩ := hunicode
    intro d hd mapping hmapping
    refine (Definition.table?_foldl_install _ _ fun _ _ hand => absurd hand.1 hr).trans ?_
    split
    · exact h d hd mapping hmapping
    · exact hasTables_prepare .unicode reg d hd mapping hmapping
  · intro d hd mapping hmapping
    rw [table?_prepare_of_ne hr fun hhtml heq => hunicode ⟨hhtml, heq⟩]
    exact h d hd mapping hmapping

/-- The built-in groups of a representation bring a table under the id. -/
def brings (r : Representation) (id : Text) : Bool :=
  (definitions r).any fun d => d.name == id && d.mapping.isSome

theorem brings_iff {r : Representation} {id : Text} :
    brings r id = true ↔
      ∃ d ∈ definitions r, d.name = id ∧ ∃ mapping, d.mapping = some mapping := by
  simp only [brings, List.any_eq_true, Bool.and_eq_true, beq_iff_eq, Option.isSome_iff_exists]

/-- Preparing a representation leaves every table alone that no built-in group brings. -/
theorem table?_prepare_of_not_brings {r : Representation} {id : Text} (h : brings r id = false)
    (r' : Representation) (reg : Registry) : (prepare r' reg).table? r id = reg.table? r id := by
  have hinstall : ∀ (r' : Representation) (reg : Registry),
      ((definitions r').foldl (fun reg d => d.install r' reg) reg).table? r id =
        reg.table? r id := by
    intro r' reg
    refine Definition.table?_foldl_install _ reg ?_
    rintro d hd ⟨rfl, rfl⟩
    rw [Option.eq_none_iff_forall_ne_some]
    intro mapping hmapping
    exact Bool.eq_false_iff.mp h (brings_iff.mpr ⟨d, hd, rfl, mapping, hmapping⟩)
  have hmarks : ∀ (reg : Registry) (r' : Representation) (marks : List Text),
      (reg.setMarks r' marks).table? r id = reg.table? r id :=
    fun reg r' marks => Registry.table?_setMarks reg r' r id marks
  cases r' with
  | plain => exact hinstall .plain reg
  | unicode | latex => exact (hmarks _ _ _).trans (hinstall _ reg)
  | html =>
      refine (hinstall .html _).trans ?_
      split
      · rfl
      · exact (hmarks _ _ _).trans (hinstall .unicode reg)

end Backend

namespace Engine

/-- The registry of a new engine: Unicode is prepared first, and LaTeX last. -/
theorem registry_create (strict : Bool) (reg : Registry) :
    (create strict reg).registry =
      Backend.prepare .latex
        (Backend.prepare .html (Backend.prepare .plain (Backend.prepare .unicode reg))) :=
  rfl

/-- A new engine has all built-in tables. -/
theorem hasTables_create (strict : Bool) (reg : Registry) (r : Representation) :
    (create strict reg).registry.HasTables r := by
  have hkeeps : ∀ {reg : Registry} (r' : Representation), reg.HasTables r →
      (Backend.prepare r' reg).HasTables r :=
    fun _ => Backend.hasTables_prepare_of_hasTables
  rw [registry_create]
  cases r with
  | unicode =>
      exact hkeeps _ (hkeeps _ (hkeeps _ (Backend.hasTables_prepare _ _)))
  | plain => exact hkeeps _ (hkeeps _ (Backend.hasTables_prepare _ _))
  | html => exact hkeeps _ (Backend.hasTables_prepare _ _)
  | latex => exact Backend.hasTables_prepare _ _

/-- A new engine leaves every table of its registry alone that no built-in group brings. -/
theorem table?_create_of_not_brings (strict : Bool) (reg : Registry) {r : Representation}
    {id : Text} (h : Backend.brings r id = false) :
    (create strict reg).registry.table? r id = reg.table? r id := by
  simp only [registry_create, Backend.table?_prepare_of_not_brings h]

/-- The accent macros are the marks of LaTeX in a new engine. -/
theorem marks_create_latex (strict : Bool) (reg : Registry) :
    (create strict reg).registry.marks .latex = distinct Symbols.Latex.marks := by
  rw [registry_create]
  exact (Registry.marks_setMarks ..).trans (if_pos rfl)

/-! ## Glossaries -/

/-- No glossary replaces a built-in group. -/
theorem get?_groups_withGlossaries (strict : Bool) (reg : Registry) (gs : List Glossary)
    {r : Representation} {d : Definition} (hd : d ∈ Backend.definitions r) :
    (((create strict reg).withGlossaries gs).backend r).groups.get? d.name = some d.group := by
  refine withGlossaries_induction
    (P := fun e => (e.backend r).groups.get? d.name = some d.group) ?_ ?_
  · intro g _ e r' mapping he hnew _
    by_cases hr : r = r'
    · subst hr
      have hname : d.name ≠ g.name := by
        intro heq
        rw [← heq, Backend.hasGroup, OrderedMap.contains, he] at hnew
        cases hnew
      rw [backend_define_self, Backend.define, OrderedMap.get?_insert]
      exact (if_neg hname).trans he
    · rw [backend_define_of_ne _ _ _ _ hr]
      exact he
  · rw [backend_create]
    exact Backend.get?_groups_standard strict hd

/-- Adding a group under a new name takes no built-in table away. -/
theorem hasTables_define {e : Engine} {r r' : Representation} (h : e.registry.HasTables r')
    {d : Definition} (hname : d.name ∉ Backend.builtInNames) :
    (e.define r d).registry.HasTables r' := by
  intro d' hd' mapping hmapping
  rw [table?_define_of_ne e r r' d ?_]
  · exact h d' hd' mapping hmapping
  · rintro ⟨-, heq⟩
    exact hname ((Backend.mem_builtInNames_iff r').mpr ⟨d', hd', heq⟩)

/-- No glossary replaces a table of a built-in group. -/
theorem hasTables_withGlossaries (strict : Bool) (reg : Registry) (gs : List Glossary)
    (r : Representation) : ((create strict reg).withGlossaries gs).registry.HasTables r := by
  refine (withGlossaries_induction (P := fun e => e.registry.HasTables r ∧
    ∀ r, ∀ d ∈ Backend.definitions r, (e.backend r).hasGroup d.name = true) ?_ ?_).1
  · rintro g _ e r' mapping ⟨htables, hgroups⟩ hnew _
    have hname : g.name ∉ Backend.builtInNames := by
      intro hmem
      obtain ⟨d, hd, hname⟩ := (Backend.mem_builtInNames_iff r').mp hmem
      have hgroup := hgroups r' d hd
      rw [hname, hnew] at hgroup
      cases hgroup
    refine ⟨hasTables_define htables hname, ?_⟩
    refine forall_backend_define (P := fun r b => ∀ d ∈ Backend.definitions r,
      b.hasGroup d.name = true) hgroups ?_
    intro d hd
    exact Backend.hasGroup_define.mpr (.inr (hgroups r' d hd))
  · refine ⟨hasTables_create strict reg r, ?_⟩
    intro r d hd
    rw [backend_create]
    exact Backend.hasGroup_standard strict hd

/-- Whatever happened to the tables since, a call of a built-in group is rendered as the group is
defined. -/
theorem invoke_builtIn (strict : Bool) (reg : Registry) (gs : List Glossary) {r : Representation}
    {d : Definition} (hd : d ∈ Backend.definitions r) (reg' : Registry)
    (peers : Representation → Peer) {keys : List Text} (harity : d.arity.accepts keys.length = true)
    (texts : List Text) :
    ((((create strict reg).withGlossaries gs).backend r).target reg' peers).invoke d.name keys
        texts = d.render ⟨reg', r, peers⟩ ⟨d.name, keys, texts⟩ := by
  have hgroup := get?_groups_withGlossaries strict reg gs hd
  rw [Backend.invoke_eq_render hgroup reg' peers harity texts,
    ((uniform_create strict reg).withGlossaries gs r).1]
  rfl

end Engine

end Sigil
