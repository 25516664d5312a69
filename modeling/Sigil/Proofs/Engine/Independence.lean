import Sigil.Proofs.Engine.Installation

/-!
# Engines forget what their registry held

A new engine writes the same as one over an empty registry, whatever its registry held before, and
goes on doing so when the same glossaries are installed in both (`Engine.create_forgets`). Two such
engines have the same groups, and every table that a renderer reads was overwritten when the engines
were made (`Engine.Twins`). All tables that nobody reads are left where they are.
-/

namespace Sigil

/-- Two engines have the same groups, and their renderers find the same in both registries. -/
structure Engine.Twins (e e' : Engine) : Prop where
  backend : ∀ r, e.backend r = e'.backend r
  isMark : e.registry.isMark .latex = e'.registry.isMark .latex
  reads : e.AllGroups fun r callee group => ∃ tables, group.render.Reads callee tables ∧
    ∀ t ∈ tables r, e.registry.table? t.1 t.2 = e'.registry.table? t.1 t.2

namespace Engine

variable {e e' : Engine}

/-- New engines are twins, whatever their registries held before. -/
theorem twins_create (strict : Bool) (reg reg' : Registry) :
    (create strict reg).Twins (create strict reg') := by
  refine ⟨fun r => ?_, ?_, allGroups_create ?_ strict reg⟩
  · rw [backend_create, backend_create]
  · funext t
    rw [Registry.isMark, Registry.isMark, marks_create_latex, marks_create_latex]
  · intro r d hd
    obtain ⟨tables, hreads, -, hbrings⟩ := Backend.reads_definitions r d hd
    refine ⟨tables d.name, hreads d.name, ?_⟩
    -- what the group reads was installed in both registries
    intro t ht
    obtain ⟨d', hd', hname, mapping, hmapping⟩ := Backend.brings_iff.mp (hbrings t ht)
    rw [← hname, hasTables_create strict reg t.1 d' hd' mapping hmapping,
      hasTables_create strict reg' t.1 d' hd' mapping hmapping]

namespace Twins

/-- Twins mean the same by calls. -/
theorem target_eq (h : e.Twins e') {strict : Bool} (huniform : e.Uniform strict)
    (r : Representation) : e.target r = e'.target r := by
  rw [target, target, ← h.backend r]
  refine Backend.target_congr ?_ h.isMark
  intro callee group hgroup keys texts
  obtain ⟨tables, hreads, htables⟩ := h.reads r callee group hgroup
  rw [(huniform r).1]
  exact hreads _ _ r htables _ _ keys texts

/-- The same group with the same table keeps engines twins, if it looks nothing up elsewhere. -/
theorem define (h : e.Twins e') (r : Representation) {d : Definition} (hrender : d.render = .lookup)
    {mapping : Mapping} (hmapping : d.mapping = some mapping) :
    (e.define r d).Twins (e'.define r d) := by
  have hregistry : ∀ e : Engine,
      (e.define r d).registry = e.registry.install r d.name ⟨d.description, mapping⟩ := by
    intro e
    show d.install r e.registry = _
    rw [Definition.install, hmapping]
  have hkeeps : ∀ r' id, e.registry.table? r' id = e'.registry.table? r' id →
      (e.define r d).registry.table? r' id = (e'.define r d).registry.table? r' id := by
    intro r' id hsame
    rw [hregistry, hregistry, Registry.table?_install, Registry.table?_install, hsame]
  refine ⟨?_, ?_, ?_⟩
  · intro r'
    by_cases hr : r' = r
    · subst hr
      rw [backend_define_self, backend_define_self, h.backend]
    · rw [backend_define_of_ne e r r' d hr, backend_define_of_ne e' r r' d hr, h.backend]
  · funext t
    rw [hregistry, hregistry, Registry.isMark, Registry.isMark, Registry.marks_install,
      Registry.marks_install]
    exact congrFun h.isMark t
  · refine AllGroups.define ?_ ?_
    · intro r' callee group hgroup
      obtain ⟨tables, hreads, htables⟩ := h.reads r' callee group hgroup
      exact ⟨tables, hreads, fun t ht => hkeeps t.1 t.2 (htables t ht)⟩
    · refine ⟨_, hrender ▸ Render.reads_lookup d.name, List.forall_mem_singleton.mpr ?_⟩
      rw [hregistry, hregistry, Registry.table?_install, Registry.table?_install,
        if_pos ⟨rfl, rfl⟩, if_pos ⟨rfl, rfl⟩]

variable {strict : Bool}

/-- Installing a glossary in one representation of twins fails for the same reason in both, or
leaves twins. -/
theorem installIn (h : e.Twins e') (huniform : e.Uniform strict) (g : Glossary)
    (r : Representation) :
    (∃ fault, g.installIn e r = .error fault ∧ g.installIn e' r = .error fault) ∨
      ∃ e₁ e₁', g.installIn e r = .ok e₁ ∧ g.installIn e' r = .ok e₁' ∧ e₁.Twins e₁' ∧
        e₁.Uniform strict := by
  unfold Glossary.installIn
  rw [← h.backend r, ← h.target_eq huniform r]
  split
  · exact .inr ⟨e, e', rfl, rfl, h, huniform⟩
  · cases g.mapping (e.target r) with
    | error fault => exact .inl ⟨fault, rfl, rfl⟩
    | ok mapping => exact .inr ⟨_, _, rfl, rfl, h.define r rfl rfl, huniform.define r _⟩

/-- Installing a glossary in twins leaves twins, also where it fails. -/
theorem installAll (h : e.Twins e') (huniform : e.Uniform strict) (g : Glossary)
    (rs : List Representation) :
    (g.installAll e rs).1.Twins (g.installAll e' rs).1 ∧
      (g.installAll e rs).1.Uniform strict := by
  induction rs generalizing e e' with
  | nil => exact ⟨h, huniform⟩
  | cons r rs ih =>
      unfold Glossary.installAll
      rcases h.installIn huniform g r with
        ⟨fault, hfault, hfault'⟩ | ⟨e₁, e₁', he, he', htwins, huniform'⟩
      · rw [hfault, hfault']
        exact ⟨h, huniform⟩
      · rw [he, he']
        exact ih htwins huniform'

/-- Installing the same glossaries in twins leaves twins. -/
theorem withGlossaries (h : e.Twins e') (huniform : e.Uniform strict) (gs : List Glossary) :
    (e.withGlossaries gs).Twins (e'.withGlossaries gs) := by
  induction gs generalizing e e' with
  | nil => exact h
  | cons g gs ih =>
      obtain ⟨htwins, huniform'⟩ := h.installAll huniform g Representation.all
      exact ih htwins huniform'

end Twins

/-- An engine with glossaries means the same by calls as one over an empty registry. -/
theorem target_eq_fresh (strict : Bool) (reg : Registry) (gs : List Glossary)
    (r : Representation) :
    ((create strict reg).withGlossaries gs).target r =
      ((create strict .empty).withGlossaries gs).target r := by
  have huniform := uniform_create strict reg
  exact ((twins_create strict reg .empty).withGlossaries huniform gs).target_eq
    (huniform.withGlossaries gs) r

/-- Adding groups of glossaries leaves every table alone that is under the name of none. -/
theorem table?_withGlossaries {gs : List Glossary} {id : Text} (hid : id ∉ gs.map Glossary.name)
    (e : Engine) (r : Representation) :
    (e.withGlossaries gs).registry.table? r id = e.registry.table? r id := by
  refine withGlossaries_induction (P := fun e' => e'.registry.table? r id = e.registry.table? r id)
    ?_ rfl
  intro g hg e' r' mapping he' _ _
  rw [table?_define_of_ne _ _ _ _ ?_, he']
  rintro ⟨-, hname⟩
  exact hid (List.mem_map.mpr ⟨g, hg, hname.symm⟩)

/-- An engine with glossaries writes expressions and single calls out as one over an empty registry
does, whatever its own registry held before. The tables that neither a built-in group nor a glossary
brings are still there. -/
theorem create_forgets (strict : Bool) (reg : Registry) (gs : List Glossary) :
    let engine := (create strict reg).withGlossaries gs
    let fresh := (create strict .empty).withGlossaries gs
    (∀ r source options, engine.parse r source options = fresh.parse r source options) ∧
    (∀ r source offset options,
      engine.parseCall r source offset options = fresh.parseCall r source offset options) ∧
    ∀ r id, Backend.brings r id = false → id ∉ gs.map Glossary.name →
      engine.registry.table? r id = reg.table? r id := by
  intro engine fresh
  have htwins : engine.Twins fresh :=
    (twins_create strict reg .empty).withGlossaries (uniform_create strict reg) gs
  have htarget : ∀ r, engine.target r = fresh.target r :=
    htwins.target_eq ((uniform_create strict reg).withGlossaries gs)
  refine ⟨?_, ?_, ?_⟩
  · intro r source options
    rw [parse, parse, htarget]
  · intro r source offset options
    rw [parseCall, parseCall, htarget]
  · intro r id hbrings hid
    rw [table?_withGlossaries hid, table?_create_of_not_brings strict reg hbrings]

/-- The Unicode subscripts are built in anew where they were emptied before, and a table of another
name is kept. -/
theorem create_forgets_sample :
    let reg := Registry.ofHistory
      [.install .unicode "sub" ⟨"none", {}⟩, .setMarks .latex ["x"],
        .install .html "own" ⟨"mine", {}⟩]
    let engine := (create false reg).withGlossaries [Symbols.physics]
    engine.parse .unicode "H$sub(2)$phy(h)" = .ok "H₂ℎ" ∧
      engine.registry.table? .html "own" = some ⟨"mine", {}⟩ := by
  intro reg engine
  obtain ⟨hparse, -, htable⟩ := create_forgets false reg [Symbols.physics]
  refine ⟨?_, ?_⟩
  · rw [hparse]
    decide +kernel
  · exact htable .html "own" rfl (by decide)

end Engine

end Sigil
