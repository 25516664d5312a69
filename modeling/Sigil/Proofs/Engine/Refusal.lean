import Sigil.Proofs.Engine.Stock

/-!
# Where an installation stops

Installing a glossary goes through the representations one after another. It leaves those alone that
have a group of the name (`Glossary.sameIn_installAll`), and it stops at the first that refuses an
expression, with the group in all representations before that one and in none behind it
(`Glossary.install_stops_at_refusal`). So a failure may leave a group in some representations only
(`Glossary.install_stops_halfway`), but not if something is visible beside every call within an
argument that is left with nothing of an argument of blanks
(`Engine.install_everywhere_or_nowhere`), since all representations refuse the same expressions then.
-/

namespace Sigil

/-! ## Representations that stay as they are -/

/-- Installing the table of a group leaves the tables and marks of other representations alone. -/
theorem Definition.sectionOf_install_of_ne (d : Definition) {r r' : Representation} (h : r' ≠ r)
    (reg : Registry) : (d.install r reg).sectionOf r' = reg.sectionOf r' := by
  unfold install
  split
  · exact (reg.sectionOf_insert ..).trans (if_neg h)
  · rfl

/-- Two engines have the same backend for a representation, and the same tables and marks. -/
structure Engine.SameIn (e : Engine) (r : Representation) (e' : Engine) : Prop where
  backend : e'.backend r = e.backend r
  sectionOf : e'.registry.sectionOf r = e.registry.sectionOf r

namespace Engine.SameIn

variable {e e' : Engine} {r r' : Representation}

theorem refl (e : Engine) (r : Representation) : e.SameIn r e := ⟨rfl, rfl⟩

/-- Adding a group to another representation leaves a representation as it is. -/
theorem define (h : e.SameIn r e') (hr : r ≠ r') (d : Definition) :
    e.SameIn r (e'.define r' d) := by
  refine ⟨?_, ?_⟩
  · rw [backend_define_of_ne e' r' r d hr]
    exact h.backend
  · exact (d.sectionOf_install_of_ne hr e'.registry).trans h.sectionOf

end Engine.SameIn

namespace Glossary

variable {g : Glossary} {e : Engine} {r : Representation} {rs : List Representation}

/-- Installing a glossary leaves a representation as it is that has a group of the name already, or
that is not among those to be gone through. -/
theorem sameIn_installAll (h : (e.backend r).hasGroup g.name = true ∨ r ∉ rs) :
    e.SameIn r (g.installAll e rs).1 := by
  refine installAll_induction (P := fun e' => e.SameIn r e') ?_ (.refl e r)
  intro e' r' hr' mapping he' hgroup _
  refine he'.define ?_ _
  rintro rfl
  rcases h with hhas | hnot
  · rw [he'.backend, hhas] at hgroup
    cases hgroup
  · exact hnot hr'

theorem installAll_cons_ok {e' : Engine} (h : g.installIn e r = .ok e') :
    g.installAll e (r :: rs) = g.installAll e' rs := by
  rw [installAll, h]

theorem installAll_cons_error {fault : Fault} (h : g.installIn e r = .error fault) :
    g.installAll e (r :: rs) = (e, some fault) := by
  rw [installAll, h]

/-- A representation that a glossary was installed in has a group of its name. -/
theorem hasGroup_installIn {e' : Engine} (h : g.installIn e r = .ok e') :
    (e'.backend r).hasGroup g.name = true := by
  rcases installIn_eq_ok h with ⟨hhas, rfl⟩ | ⟨-, mapping, -, rfl⟩
  · exact hhas
  · rw [Engine.backend_define_self, Backend.hasGroup_define]
    exact .inl rfl

/-- An installation that succeeds leaves the group in every representation that it goes through. -/
theorem hasGroup_installAll (hnone : (g.installAll e rs).2 = none) (hr : r ∈ rs) :
    ((g.installAll e rs).1.backend r).hasGroup g.name = true := by
  induction rs generalizing e with
  | nil => cases hr
  | cons first rest ih =>
      cases hfirst : g.installIn e first with
      | ok e' =>
          rw [installAll_cons_ok hfirst] at hnone ⊢
          rcases List.mem_cons.mp hr with rfl | hr
          · have hhas := hasGroup_installIn hfirst
            rw [(sameIn_installAll (.inl hhas)).backend]
            exact hhas
          · exact ih hnone hr
      | error fault =>
          rw [installAll_cons_error hfirst] at hnone
          cases hnone

/-- An installation that begins with a representation without a group of the name finds codes there,
if it succeeds. -/
theorem exists_mapping_of_installAll (hlacks : (e.backend r).hasGroup g.name = false)
    (hnone : (g.installAll e (r :: rs)).2 = none) :
    ∃ mapping, g.mapping (e.target r) = .ok mapping := by
  cases hfirst : g.installIn e r with
  | ok e' =>
      rcases installIn_eq_ok hfirst with ⟨hhas, -⟩ | ⟨-, mapping, hmapping, -⟩
      · rw [hlacks] at hhas
        cases hhas
      · exact ⟨mapping, hmapping⟩
  | error fault =>
      rw [installAll_cons_error hfirst] at hnone
      cases hnone

/-- An installation that fails has gone through the representations up to one that refuses the
glossary. -/
theorem exists_refusal {fault : Fault} (h : (g.installAll e rs).2 = some fault) :
    ∃ done r left, rs = done ++ r :: left ∧
      g.installAll e done = ((g.installAll e rs).1, none) ∧
      g.installIn (g.installAll e rs).1 r = .error fault := by
  induction rs generalizing e with
  | nil => cases h
  | cons first rest ih =>
      cases hfirst : g.installIn e first with
      | ok e' =>
          rw [installAll_cons_ok hfirst] at h ⊢
          obtain ⟨done, r, left, rfl, hdone, hrefusal⟩ := ih h
          exact ⟨first :: done, r, left, rfl, (installAll_cons_ok hfirst).trans hdone, hrefusal⟩
      | error fault' =>
          rw [installAll_cons_error hfirst] at h ⊢
          cases h
          exact ⟨[], first, rest, rfl, rfl, hfirst⟩

/-- No representation is gone through twice. -/
theorem not_mem_of_all_eq {done left : List Representation}
    (h : Representation.all = done ++ r :: left) {r' : Representation} (hr' : r' ∈ r :: left) :
    r' ∉ done := by
  have hdistinct : Representation.all.Nodup := by decide
  rw [h, List.nodup_append] at hdistinct
  exact fun hmem => hdistinct.2.2 r' hmem r' hr' rfl

/-- Installing a glossary leaves the group in all representations, or it stops at the first that
refuses an expression. Then all representations before that one have the group, and those from that
one on are as they were. Representations that had a group of the name are left alone in any case, so
an installation that fails changes nothing just where all representations before the refusal had
one. -/
theorem install_stops_at_refusal (g : Glossary) (e : Engine) :
    let e' := (g.install e).1
    (∀ r, (e.backend r).hasGroup g.name = true → e.SameIn r e') ∧
    match (g.install e).2 with
    | none => ∀ r, (e'.backend r).hasGroup g.name = true
    | some fault => ∃ done r left, Representation.all = done ++ r :: left ∧
        g.installIn e' r = .error fault ∧
        (∀ r' ∈ done, (e'.backend r').hasGroup g.name = true) ∧
        (∀ r' ∈ r :: left, e.SameIn r' e') ∧
        (e' = e ↔ ∀ r' ∈ done, (e.backend r').hasGroup g.name = true) := by
  intro e'
  refine ⟨fun r hhas => sameIn_installAll (.inl hhas), ?_⟩
  cases hfault : (g.install e).2 with
  | none => exact fun r => hasGroup_installAll hfault (Representation.mem_all r)
  | some fault =>
      obtain ⟨done, r, left, hall, hdone, hrefusal⟩ := exists_refusal hfault
      change g.installAll e done = (e', none) at hdone
      have hfirst : (g.installAll e done).1 = e' := by rw [hdone]
      have hadded : ∀ r' ∈ done, (e'.backend r').hasGroup g.name = true := by
        intro r' hr'
        rw [← hfirst]
        exact hasGroup_installAll (by rw [hdone]) hr'
      refine ⟨done, r, left, hall, hrefusal, hadded, ?_, ?_, ?_⟩
      · intro r' hr'
        rw [← hfirst]
        exact sameIn_installAll (.inr (not_mem_of_all_eq hall hr'))
      · intro hsame r' hr'
        rw [← hsame]
        exact hadded r' hr'
      · intro hhas
        rw [← hfirst, installAll_of_hasGroup hhas]

/-- Plain text writes a fraction of a blank argument out, which Unicode drops, so that the subscript
around it is an argument short. The group is left in plain text alone. -/
theorem install_stops_halfway :
    let e := Engine.create false .empty
    let g : Glossary :=
      { name := "foo", description := "examples"
        expressions := .ofStrings [("k", "$sub($frac( ,1))")] }
    let e' := (g.install e).1
    (∃ reason, (g.install e).2 =
      some (.parse ⟨.invalidArgument reason, "$sub($frac( ,1))", 16⟩)) ∧
      (∀ r, (e.backend r).hasGroup g.name = false ∧ e.registry.hasTable r g.name = false) ∧
      (e'.backend .plain).hasGroup g.name = true ∧ e'.registry.hasTable .plain g.name = true ∧
      (e'.backend .unicode).hasGroup g.name = false := by
  intro e g e'
  refine ⟨⟨"unicode renderer 'sub' takes 1 argument, got 0", by decide +kernel⟩, ?_,
    by decide +kernel, by decide +kernel, by decide +kernel⟩
  intro r
  cases r <;> decide +kernel

/-! ## Installations without a trace -/

/-- What an installation changes is under the name of the glossary. -/
theorem agreesOff_installAll (g : Glossary) (e : Engine) (rs : List Representation) :
    e.registry.AgreesOff g.name (g.installAll e rs).1.registry := by
  refine installAll_induction (P := fun e' => e.registry.AgreesOff g.name e'.registry) ?_ (.refl _)
  intro e' r _ mapping he' _ _
  exact he'.trans ((g.definition mapping).agreesOff_install r e'.registry)

/-- A representation that is still to come means the same by calls as before, if its groups ignore
the tables of the name. -/
theorem target_installAll (hignores : (e.backend r).Ignores g.name) (hr : r ∉ rs) :
    (g.installAll e rs).1.target r = e.target r := by
  rw [Engine.target, (sameIn_installAll (.inr hr)).backend]
  exact (hignores.target_eq (agreesOff_installAll g e rs) _ _).symm

/-- A glossary of a new name that no representation refuses but those that plain text refuses too is
installed in all representations or in none. -/
theorem install_of_plain (hnew : ∀ r, (e.backend r).hasGroup g.name = false)
    (hignores : ∀ r, (e.backend r).Ignores g.name)
    (hplain : (∃ mapping, g.mapping (e.target .plain) = .ok mapping) →
      ∀ r, ∃ mapping, g.mapping (e.target r) = .ok mapping) :
    (g.install e).2 = none ∨ (g.install e).1 = e := by
  cases hfault : (g.install e).2 with
  | none => exact .inl rfl
  | some fault =>
      right
      obtain ⟨done, r, left, hall, hdone, hrefusal⟩ := exists_refusal hfault
      cases done with
      | nil => exact (congrArg Prod.fst hdone).symm
      | cons first done =>
          -- plain text comes first and was gone through, so no representation refuses
          exfalso
          have hfirst : first = .plain := (List.cons.inj hall).1.symm
          subst hfirst
          have hcodes := exists_mapping_of_installAll (hnew .plain) (congrArg Prod.snd hdone)
          obtain ⟨mapping, hmapping⟩ := hplain hcodes r
          have hstill := target_installAll (hignores r)
            (not_mem_of_all_eq hall (List.mem_cons_self ..))
          rw [hdone] at hstill
          rw [installIn, hstill, hmapping] at hrefusal
          split at hrefusal <;> cases hrefusal

end Glossary

namespace Engine

variable {e : Engine} {names : List Text}

/-- The representations of a well stocked engine have groups of the same names. -/
theorem IsWellStocked.hasGroup_all_or_none (h : e.IsWellStocked names) (name : Text) :
    (∀ r, (e.backend r).hasGroup name = true) ∨ ∀ r, (e.backend r).hasGroup name = false := by
  by_cases hbuiltIn : name ∈ Backend.builtInNames
  · left
    intro r
    obtain ⟨d, hd, rfl⟩ := (Backend.mem_builtInNames_iff r).mp hbuiltIn
    exact Backend.hasGroup_iff.mpr ⟨_, (h.stocked r).builtIn d hd⟩
  by_cases hadded : name ∈ names
  · left
    intro r
    obtain ⟨-, -, description, hgroup⟩ := (h.stocked r).added name hadded
    exact Backend.hasGroup_iff.mpr ⟨_, hgroup⟩
  · right
    intro r
    rw [Backend.hasGroup, OrderedMap.contains, (h.stocked r).only name hbuiltIn hadded]
    rfl

/-- A well stocked engine has codes for a glossary in all representations if it has them in plain
text, and if every argument with a call of a hollow group in it that has a first argument of blanks
is clear. -/
theorem IsWellStocked.exists_mapping (h : e.IsWellStocked names) {g : Glossary}
    (hspellings : ∀ r key, (g.spellings r).get? key = none)
    (hspares : ∀ entry ∈ g.expressions.entries,
      (e.target .plain).isClearIn (Target.spares hollowGroups) false entry.2 = true)
    (hplain : ∃ mapping, g.mapping (e.target .plain) = .ok mapping)
    (r : Representation) : ∃ mapping, g.mapping (e.target r) = .ok mapping := by
  have hcode : ∀ r key expression, g.code (e.target r) key expression =
      e.parse r expression { strict := some false } := by
    intro r key expression
    rw [Glossary.code, hspellings]
    rfl
  have hmanner : ∀ r, ({ strict := some false } : Options).manner (e.target r) = {} := fun _ => rfl
  have haccords := ((h.stocked .plain).accords_bare h.tables).join
    ((h.stocked r).accords_bare h.tables) (Target.spares_congr hollowGroups)
  rw [Glossary.exists_mapping_iff] at hplain ⊢
  intro key expression hentry
  obtain ⟨code, hcoded⟩ := hplain key expression hentry
  rw [hcode] at hcoded ⊢
  rcases haccords.parse (hspares _ hentry) (hmanner .plain) (hmanner r) with
    ⟨-, code', -, hcode', -⟩ | ⟨_, -, hfault, -⟩
  · exact ⟨code', hcode'⟩
  · cases hfault.symm.trans hcoded

/-- In a new engine with glossaries of the library, a glossary without spellings of its own is
installed in all representations or in none, if every argument in its expressions is clear that has a
call of a hollow group in it with a first argument of blanks. -/
theorem install_everywhere_or_nowhere {strict : Bool} {reg : Registry} {gs : List Glossary}
    (hgs : gs ⊆ Symbols.glossaries) (he : e = (create strict reg).withGlossaries gs)
    {g : Glossary} (hspellings : ∀ r key, (g.spellings r).get? key = none)
    (hspares : ∀ entry ∈ g.expressions.entries,
      (e.target .plain).isClearIn (Target.spares hollowGroups) false entry.2 = true) :
    (g.install e).2 = none ∨ (g.install e).1 = e := by
  obtain ⟨names, hstocked⟩ := exists_isWellStocked strict reg hgs
  rw [← he] at hstocked
  have hlocal : e.Local := he ▸ (local_create strict reg).withGlossaries gs
  rcases hstocked.hasGroup_all_or_none g.name with hhas | hnew
  · left
    rw [Glossary.install, Glossary.installAll_of_hasGroup fun r _ => hhas r]
  · exact Glossary.install_of_plain hnew (fun r => hlocal.ignores hnew r)
      (hstocked.exists_mapping hspellings hspares)

end Engine

end Sigil
