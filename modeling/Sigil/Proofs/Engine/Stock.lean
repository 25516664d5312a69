import Sigil.Proofs.Backend.LastPass
import Sigil.Proofs.Backend.Visible
import Sigil.Proofs.Engine.Creation
import Sigil.Proofs.Engine.Installation

/-!
# What engines are stocked with

An engine with the library's glossaries has groups of the same names and arities in all
representations, and tables of visible codes (`Engine.exists_isWellStocked`), so that each of its
targets accords with that of bare arguments (`Engine.IsStocked.accords_bare`). A glossary is
installed in one representation after another, hence each of them is stocked by itself
(`Engine.IsStocked`). That its codes are visible is seen from the bare arguments of its expressions,
before any table is looked at (`Glossary.isVisible`).
-/

namespace Sigil

namespace Engine

/-- The arities of the built-in groups, and of groups that glossaries brought under some names. -/
def arity? (names : List Text) (callee : Text) : Option Arity :=
  if callee = "frac" then some (.exactly 2)
  else if callee ∈ Backend.builtInNames ++ names then some (.exactly 1)
  else none

/-- A group that is not built in has an arity if a glossary brought it. -/
theorem arity?_of_not_mem {callee : Text} (h : callee ∉ Backend.builtInNames)
    (names : List Text) :
    arity? names callee = if callee ∈ names then some (.exactly 1) else none := by
  have hfrac : callee ≠ "frac" := by
    rintro rfl
    exact h (by decide)
  simp only [arity?, if_neg hfrac, List.mem_append, h, false_or]

/-- Built-in groups have the same arities in all representations. -/
theorem arity?_definitions (names : List Text) (r : Representation) :
    ∀ d ∈ Backend.definitions r, arity? names d.name = some d.arity := by
  have hbuiltIn : ∀ callee, callee ∈ Backend.builtInNames → callee ≠ "frac" →
      arity? names callee = some (.exactly 1) := by
    intro callee hcallee hfrac
    rw [arity?, if_neg hfrac, if_pos (List.mem_append_left names hcallee)]
  intro d hd
  cases r <;>
    simp only [Backend.definitions, Plain.definitions, Unicode.definitions, Html.definitions,
      Latex.definitions, List.mem_cons, List.not_mem_nil, or_false] at hd <;>
    rcases hd with rfl | rfl | rfl | rfl | rfl | rfl | rfl <;>
    first | exact hbuiltIn _ (by decide) (by decide) | rfl

/-- No group takes calls without arguments. -/
theorem accepts_zero_of_arity? {names : List Text} {callee : Text} {arity : Arity}
    (h : arity? names callee = some arity) : arity.accepts 0 = false := by
  unfold arity? at h
  split at h
  · cases h
    rfl
  split at h
  · cases h
    rfl
  · cases h

/-- A representation has the built-in groups, and groups of glossaries under some new names whose
tables have visible codes. -/
structure IsStocked (e : Engine) (names : List Text) (r : Representation) : Prop where
  representation : (e.backend r).representation = r
  builtIn : ∀ d ∈ Backend.definitions r, (e.backend r).groups.get? d.name = some d.group
  added : ∀ callee ∈ names, callee ∉ Backend.builtInNames ∧ e.registry.Shows r callee ∧
    ∃ description, (e.backend r).groups.get? callee = some ⟨.lookup, description, .exactly 1⟩
  only : ∀ callee, callee ∉ Backend.builtInNames → callee ∉ names →
    (e.backend r).groups.get? callee = none

end Engine

/-- The codes of all built-in tables are visible. -/
theorem Backend.shows_mapping (r : Representation) {d : Definition} (hd : d ∈ definitions r)
    {mapping : Mapping} (hmapping : d.mapping = some mapping) : mapping.Shows := by
  have hall : (definitions r).all (fun d => d.mapping.all fun mapping =>
      mapping.entries.all fun entry =>
        entry.1 ≠ [] && entry.2.visibility = .visible) = true := by
    cases r <;> decide +kernel
  have hd := List.all_eq_true.mp hall d hd
  rw [hmapping, Option.all_some] at hd
  intro key code hcode
  have hentry := List.all_eq_true.mp hd _ (OrderedMap.mem_entries_iff.mpr hcode)
  simpa using hentry

/-- Built-in tables have visible codes. -/
theorem Registry.HasTables.shows {reg : Registry} {r : Representation} (h : reg.HasTables r) :
    ∀ name ∈ Backend.tabledNames r, reg.Shows r name := by
  intro name hname table htable
  obtain ⟨d, hd, rfl⟩ := List.mem_map.mp hname
  obtain ⟨hd, hsome⟩ := List.mem_filter.mp hd
  obtain ⟨mapping, hmapping⟩ := Option.isSome_iff_exists.mp hsome
  rw [h d hd mapping hmapping] at htable
  cases htable
  exact Backend.shows_mapping r hd hmapping

namespace Engine

variable {e : Engine} {names : List Text} {r : Representation}

/-- A stocked representation accords with the target of bare arguments. -/
theorem IsStocked.accords_bare (h : e.IsStocked names r) (htables : ∀ r, e.registry.HasTables r) :
    (e.target r).Accords (Target.bare (arity? names)) (Target.spares hollowGroups) := by
  -- every group is a built-in one or was brought by a glossary
  have hgroups : ∀ callee, (∃ d ∈ Backend.definitions r, d.name = callee) ∨ callee ∈ names ∨
      (callee ∉ Backend.builtInNames ∧ callee ∉ names) := by
    intro callee
    by_cases hbuiltIn : callee ∈ Backend.builtInNames
    · exact .inl ((Backend.mem_builtInNames_iff r).mp hbuiltIn)
    · by_cases hadded : callee ∈ names
      · exact .inr (.inl hadded)
      · exact .inr (.inr ⟨hbuiltIn, hadded⟩)
  refine Backend.accords_bare ?_ (fun _ _ => accepts_zero_of_arity?) ?_
  · intro callee
    rcases hgroups callee with ⟨d, hd, rfl⟩ | hadded | ⟨hbuiltIn, hadded⟩
    · rw [h.builtIn d hd, arity?_definitions names r d hd]
      rfl
    · obtain ⟨hbuiltIn, -, description, hgroup⟩ := h.added callee hadded
      rw [hgroup, arity?_of_not_mem hbuiltIn, if_pos hadded]
      rfl
    · rw [h.only callee hbuiltIn hadded, arity?_of_not_mem hbuiltIn, if_neg hadded]
      rfl
  · intro callee group hgroup
    rw [h.representation]
    rcases hgroups callee with ⟨d, hd, rfl⟩ | hadded | ⟨hbuiltIn, hadded⟩
    · rw [h.builtIn d hd] at hgroup
      cases hgroup
      exact Backend.orderly_definitions (fun r => (htables r).shows) r d hd
    · obtain ⟨-, hshows, description, hgroup'⟩ := h.added callee hadded
      rw [hgroup'] at hgroup
      cases hgroup
      exact ⟨Group.closed_of_exactly Render.closed_lookup description, Render.shows_lookup hshows,
        fun _ => Render.refuses_lookup hshows⟩
    · rw [h.only callee hbuiltIn hadded] at hgroup
      cases hgroup

/-! ## Adding the group of a glossary -/

/-- Adding a group under a new name leaves other representations stocked as they are. -/
theorem IsStocked.define_of_ne {r' : Representation} (h : e.IsStocked names r') (hr : r' ≠ r)
    (d : Definition) : (e.define r d).IsStocked names r' := by
  have hbackend := backend_define_of_ne e r r' d hr
  refine ⟨?_, ?_, ?_, ?_⟩
  · rw [hbackend]
    exact h.representation
  · rw [hbackend]
    exact h.builtIn
  · rw [hbackend]
    intro callee hcallee
    obtain ⟨hnew, hshows, hgroup⟩ := h.added callee hcallee
    refine ⟨hnew, ?_, hgroup⟩
    unfold Registry.Shows
    rw [table?_define_of_ne e r r' d fun hand => hr hand.1]
    exact hshows
  · rw [hbackend]
    exact h.only

/-- A representation is stocked with a group that was added under a new name, with visible codes. -/
theorem IsStocked.define_self (h : e.IsStocked names r) {g : Glossary}
    (hname : g.name ∉ Backend.builtInNames) {mapping : Mapping} (hmapping : mapping.Shows) :
    (e.define r (g.definition mapping)).IsStocked (g.name :: names) r := by
  have hinstalled := Glossary.isInstalled_define g e r mapping
  have hold : ∀ callee, callee ≠ g.name →
      ((e.define r (g.definition mapping)).backend r).groups.get? callee =
        (e.backend r).groups.get? callee := by
    intro callee hcallee
    rw [backend_define_self]
    exact (OrderedMap.get?_insert ..).trans (if_neg hcallee)
  refine ⟨?_, ?_, ?_, ?_⟩
  · rw [backend_define_self]
    exact h.representation
  · intro d hd
    rw [hold]
    · exact h.builtIn d hd
    · intro heq
      exact hname ((Backend.mem_builtInNames_iff r).mpr ⟨d, hd, heq⟩)
  · intro callee hcallee
    by_cases hnew : callee = g.name
    · subst hnew
      refine ⟨hname, ?_, _, hinstalled.group⟩
      intro table htable
      rw [hinstalled.table?] at htable
      cases htable
      exact hmapping
    · have hadded := (List.mem_cons.mp hcallee).resolve_left hnew
      obtain ⟨hbuiltIn, hshows, hgroup⟩ := h.added callee hadded
      refine ⟨hbuiltIn, ?_, ?_⟩
      · unfold Registry.Shows
        rw [table?_define_of_ne e r r _ fun hand => hnew hand.2]
        exact hshows
      · rw [hold callee hnew]
        exact hgroup
  · intro callee hbuiltIn hnames
    rw [List.mem_cons, not_or] at hnames
    rw [hold callee hnames.1]
    exact h.only callee hbuiltIn hnames.2

end Engine

namespace Glossary

/-- Every symbol is to be seen in its spellings and in the bare arguments of its expression, none of
which is in doubt for a call of a hollow group. -/
def isVisible (g : Glossary) (names : List Text) : Bool :=
  let bare := Target.bare (Engine.arity? names)
  (g.expressions.entries.all fun (key, expression) =>
    key ≠ [] && bare.isClearIn (Target.spares hollowGroups) true expression &&
      match bare.evaluate {} expression with
      | .ok fragments => (Fragment.concat fragments).visibility = .visible
      | .error _ => false) &&
  Representation.all.all fun r =>
    (g.spellings r).entries.all fun entry => entry.2.visibility = .visible

variable {g : Glossary} {e : Engine} {names : List Text} {r : Representation}

/-- A stocked representation writes the symbols of such a glossary out visibly, and their keys are
not empty. -/
theorem exists_visible_code (h : e.IsStocked names r) (htables : ∀ r, e.registry.HasTables r)
    (hg : g.isVisible names = true) {key expression : Text}
    (hentry : (key, expression) ∈ g.expressions.entries) :
    key ≠ [] ∧ ∃ code, g.code (e.target r) key expression = .ok code ∧
      code.visibility = .visible := by
  simp only [isVisible, Bool.and_eq_true, List.all_eq_true, decide_eq_true_eq] at hg
  obtain ⟨hexpressions, hspellings⟩ := hg
  obtain ⟨⟨hkey, hclear⟩, hvisible⟩ := hexpressions _ hentry
  refine ⟨hkey, ?_⟩
  have hrepresentation : (e.target r).representation = r := h.representation
  unfold code
  rw [hrepresentation]
  split
  · rename_i spelling hspelling
    exact ⟨spelling, rfl, hspellings r (Representation.mem_all r) _
      (OrderedMap.mem_entries_iff.mpr hspelling)⟩
  · have haccords := (Target.bare_accords _ _).join (h.accords_bare htables)
      (Target.spares_congr hollowGroups)
    rcases haccords.evaluate hclear with ⟨bare, fragments, hbare, heval, halike⟩ | ⟨_, _, hbare, -⟩
    · rw [hbare] at hvisible
      have hconcat : (Fragment.concat fragments).visibility = .visible := by
        rw [← Fragment.visibility_concat_congr (halike rfl)]
        exact of_decide_eq_true hvisible
      refine ⟨(e.target r).output fragments, ?_, ?_⟩
      · show (do return (e.target r).output (← (e.target r).evaluate {} expression)) = _
        rw [heval]
        rfl
      · rw [Engine.target, Backend.output_target]
        exact Backend.visibility_translate _ _ hconcat
    · rw [hbare] at hvisible
      cases hvisible

/-- A stocked representation has a table of visible codes for such a glossary. -/
theorem exists_visible_mapping (h : e.IsStocked names r) (htables : ∀ r, e.registry.HasTables r)
    (hg : g.isVisible names = true) :
    ∃ mapping, g.mapping (e.target r) = .ok mapping ∧ mapping.Shows := by
  obtain ⟨entries, hentries⟩ : ∃ entries, (g.expressions.entries.mapM fun (key, expression) => do
      return (key, ← g.code (e.target r) key expression)) = .ok entries := by
    refine exists_results_of_mapM ?_
    rintro ⟨key, expression⟩ hentry
    obtain ⟨-, code, hcode, -⟩ := exists_visible_code h htables hg hentry
    exact ⟨(key, code), bind_eq_ok_iff.mpr ⟨code, hcode, rfl⟩⟩
  refine ⟨.ofList entries, bind_eq_ok_iff.mpr ⟨entries, hentries, rfl⟩, ?_⟩
  intro key code hcode
  have hmem := OrderedMap.mem_of_mem_entries_ofList (OrderedMap.mem_entries_iff.mpr hcode)
  obtain ⟨⟨key', expression⟩, hentry, hresult⟩ := exists_of_mem_mapM hentries hmem
  obtain ⟨code', hcode', hpair⟩ := bind_eq_ok_iff.mp hresult
  cases hpair
  obtain ⟨hkey, code'', hcode'', hvisible⟩ := exists_visible_code h htables hg hentry
  rw [hcode'] at hcode''
  cases hcode''
  exact ⟨hkey, hvisible⟩

/-- A stocked representation takes such a glossary under a new name. -/
theorem exists_installIn (h : e.IsStocked names r) (htables : ∀ r, e.registry.HasTables r)
    (hname : g.name ∉ Backend.builtInNames) (hnew : g.name ∉ names)
    (hg : g.isVisible names = true) :
    ∃ mapping, mapping.Shows ∧ g.installIn e r = .ok (e.define r (g.definition mapping)) := by
  obtain ⟨mapping, hmapping, hshows⟩ := exists_visible_mapping h htables hg
  refine ⟨mapping, hshows, ?_⟩
  have hgroup : (e.backend r).hasGroup g.name = false := by
    rw [Backend.hasGroup, OrderedMap.contains, h.only g.name hname hnew]
    rfl
  rw [installIn, hgroup, hmapping]
  rfl

/-- Installing such a glossary under a new name has no fault, and stocks every representation with
its group. -/
theorem isStocked_installAll {rs : List Representation} (hrs : rs.Nodup)
    (htables : ∀ r, e.registry.HasTables r) (hname : g.name ∉ Backend.builtInNames)
    (hnew : g.name ∉ names) (hg : g.isVisible names = true)
    (h : ∀ r ∈ rs, e.IsStocked names r) :
    (g.installAll e rs).2 = none ∧
      ∀ r ∈ rs, (g.installAll e rs).1.IsStocked (g.name :: names) r := by
  induction rs generalizing e with
  | nil => exact ⟨rfl, List.forall_mem_nil _⟩
  | cons first rest ih =>
      rw [List.nodup_cons] at hrs
      rw [List.forall_mem_cons] at h
      obtain ⟨mapping, hshows, hfirst⟩ := exists_installIn h.1 htables hname hnew hg
      have hrest : ∀ r ∈ rest, (e.define first (g.definition mapping)).IsStocked names r :=
        fun r hr => (h.2 r hr).define_of_ne (fun heq : r = first => hrs.1 (heq ▸ hr)) _
      obtain ⟨hfault, hstocked⟩ := ih hrs.2 (fun r => Engine.hasTables_define (htables r) hname)
        hrest
      rw [installAll, hfirst]
      refine ⟨hfault, List.forall_mem_cons.mpr ⟨?_, hstocked⟩⟩
      -- what is installed in the other representations does not touch this one
      refine installAll_induction (P := fun e => e.IsStocked (g.name :: names) first) ?_
        (h.1.define_self hname hshows)
      intro e' r' hr' mapping' he' _ _
      exact he'.define_of_ne (fun heq => hrs.1 (heq ▸ hr')) _

/-- Installing a glossary whose group is there in all representations does nothing. -/
theorem installAll_of_hasGroup {rs : List Representation}
    (h : ∀ r ∈ rs, (e.backend r).hasGroup g.name = true) : g.installAll e rs = (e, none) := by
  induction rs with
  | nil => rfl
  | cons r rs ih =>
      rw [List.forall_mem_cons] at h
      have hfirst : g.installIn e r = .ok e := by
        rw [installIn, if_pos h.1]
      rw [installAll, hfirst]
      exact ih h.2

end Glossary

namespace Engine

/-- All representations are stocked with the built-in groups and tables, and with groups under the
same names. -/
structure IsWellStocked (e : Engine) (names : List Text) : Prop where
  tables : ∀ r, e.registry.HasTables r
  stocked : ∀ r, e.IsStocked names r

/-- A new engine has the built-in groups alone. -/
theorem isWellStocked_create (strict : Bool) (reg : Registry) :
    (create strict reg).IsWellStocked [] := by
  refine ⟨hasTables_create strict reg, ?_⟩
  intro r
  refine ⟨?_, ?_, List.forall_mem_nil _, ?_⟩
  · exact ((uniform_create strict reg) r).1
  · rw [backend_create]
    exact fun d hd => Backend.get?_groups_standard strict hd
  · intro callee hcallee _
    rw [backend_create, Backend.groups_standard]
    cases hget : (OrderedMap.ofList ((Backend.definitions r).map fun d => (d.name, d.group))).get?
        callee with
    | none => rfl
    | some group =>
        have hmem := OrderedMap.mem_of_mem_entries_ofList (OrderedMap.mem_entries_iff.mpr hget)
        obtain ⟨d, hd, hpair⟩ := List.mem_map.mp hmem
        cases hpair
        exact absurd ((Backend.mem_builtInNames_iff r).mpr ⟨d, hd, rfl⟩) hcallee

/-- Installing a visible glossary has no fault, and keeps an engine well stocked, with its group or
as it was. -/
theorem IsWellStocked.install (h : e.IsWellStocked names) {g : Glossary}
    (hname : g.name ∉ Backend.builtInNames) (hg : g.name ∉ names → g.isVisible names = true) :
    (g.install e).2 = none ∧
      (g.install e).1.IsWellStocked (if g.name ∈ names then names else g.name :: names) := by
  split
  · rename_i hadded
    have hinstall : g.install e = (e, none) := by
      refine Glossary.installAll_of_hasGroup fun r _ => ?_
      obtain ⟨-, -, description, hgroup⟩ := (h.stocked r).added g.name hadded
      exact Backend.hasGroup_iff.mpr ⟨_, hgroup⟩
    rw [hinstall]
    exact ⟨rfl, h⟩
  · rename_i hnew
    have hdistinct : Representation.all.Nodup := by decide
    obtain ⟨hfault, hstocked⟩ := Glossary.isStocked_installAll hdistinct h.tables hname hnew
      (hg hnew) fun r _ => h.stocked r
    refine ⟨hfault, fun r => ?_, fun r => hstocked r (Representation.mem_all r)⟩
    exact Glossary.installAll_induction (P := fun e => e.registry.HasTables r)
      (fun e r' _ mapping he _ _ => hasTables_define he hname) (h.tables r)

/-- The names under which the glossaries of the library may have added groups. -/
def glossaryNames : List (List Text) := [[], ["phy"], ["sm"], ["sm", "phy"], ["phy", "sm"]]

/-- The symbols of the library's glossaries are visible, whichever of the other groups are there. -/
theorem isVisible_glossaries : ∀ g ∈ Symbols.glossaries, g.name ∉ Backend.builtInNames ∧
    ∀ names ∈ glossaryNames, (g.name ∉ names → g.isVisible names = true) ∧
      (if g.name ∈ names then names else g.name :: names) ∈ glossaryNames := by
  decide +kernel

/-- An engine with glossaries of the library is well stocked. -/
theorem exists_isWellStocked (strict : Bool) (reg : Registry) {gs : List Glossary}
    (hgs : gs ⊆ Symbols.glossaries) :
    ∃ names, ((create strict reg).withGlossaries gs).IsWellStocked names := by
  have hfold : ∀ {e : Engine} {names : List Text}, names ∈ glossaryNames →
      e.IsWellStocked names → ∃ names, (e.withGlossaries gs).IsWellStocked names := by
    induction gs with
    | nil => exact fun _ h => ⟨_, h⟩
    | cons g gs ih =>
        intro e names hnames h
        rw [List.cons_subset] at hgs
        obtain ⟨hname, hvisible⟩ := isVisible_glossaries g hgs.1
        obtain ⟨hg, hnames⟩ := hvisible names hnames
        exact ih hgs.2 hnames (h.install hname hg).2
  exact hfold (by decide) (isWellStocked_create strict reg)

end Engine

end Sigil
