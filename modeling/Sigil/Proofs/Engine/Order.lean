import Sigil.Proofs.Engine.Disregard
import Sigil.Proofs.Engine.Refusal

/-!
# Glossaries one after another

Installing a glossary again changes nothing, and the order in which two glossaries are installed
does not show in what is written out, if neither calls the other
(`Engine.installations_settle_and_commute`). An engine with one of the glossaries agrees with the
engine without it off the name, and what one glossary leaves alone at one name the other leaves
alone at its own, so that the two orders agree at every name. All other groups must disregard the
names. That is so of the built-in groups, but not of a renderer that writes out expressions of its
own making, or of one that asks which groups there are (`Engine.order_shows`).
-/

namespace Sigil

namespace Engine

/-! ## Engines in which other groups disregard a name -/

/-- If a representation lacks the group of a name, all other groups disregard the name. -/
def Disregards (e : Engine) (name : Text) : Prop :=
  (∃ r, (e.backend r).hasGroup name = false) →
    e.AllGroups fun _ callee group => callee ≠ name → group.render.Disregards name

variable {e : Engine} {name : Text}

/-- In a new engine other groups disregard all names. -/
theorem disregards_create (strict : Bool) (reg : Registry) (name : Text) :
    (create strict reg).Disregards name := by
  rintro ⟨r, hlacks⟩
  -- the tables that fractions are built from are those of groups, which are there
  have hname : name ∉ Unicode.borrowedTables := by
    intro hborrowed
    have hbuiltIn : ∀ name ∈ Unicode.borrowedTables, name ∈ Backend.builtInNames := by decide
    obtain ⟨d, hd, rfl⟩ := (Backend.mem_builtInNames_iff r).mp (hbuiltIn name hborrowed)
    rw [backend_create, Backend.hasGroup_standard strict hd] at hlacks
    cases hlacks
  exact allGroups_create (fun r d hd _ => Backend.disregards_definitions r hname d hd) strict reg

/-- Adding a group that disregards a name keeps other groups disregarding it. -/
theorem Disregards.define (h : e.Disregards name) (r : Representation) {d : Definition}
    (hd : d.name ≠ name → d.render.Disregards name) : (e.define r d).Disregards name := by
  rintro ⟨r', hlacks⟩
  refine AllGroups.define (h ⟨r', ?_⟩) hd
  by_cases hr : r' = r
  · subst hr
    rw [backend_define_self, Bool.eq_false_iff, ne_eq, Backend.hasGroup_define, not_or] at hlacks
    exact Bool.eq_false_iff.mpr hlacks.2
  · rwa [backend_define_of_ne e r r' d hr] at hlacks

/-- Adding groups of glossaries keeps other groups disregarding a name. -/
theorem Disregards.withGlossaries (h : e.Disregards name) (gs : List Glossary) :
    (e.withGlossaries gs).Disregards name :=
  withGlossaries_induction (P := fun e => e.Disregards name)
    (fun _ _ _ r _ he _ _ => he.define r fun _ => Render.disregards_lookup name) h

/-- Changes to the registry keep groups disregarding a name. -/
theorem Disregards.change (h : e.Disregards name) (changes : List Registry.Change) :
    (e.change changes).Disregards name := h

/-! ## Installing in either order -/

variable {g g' : Glossary}

/-- Installing a glossary takes no group away. -/
theorem hasGroup_install {r : Representation} (h : (e.backend r).hasGroup name = true)
    (g : Glossary) : ((g.install e).1.backend r).hasGroup name = true := by
  refine Glossary.installAll_induction (P := fun e => (e.backend r).hasGroup name = true) ?_ h
  intro e r' _ mapping he _ _
  by_cases hr : r = r'
  · subst hr
    rw [backend_define_self, Backend.hasGroup_define]
    exact .inr he
  · rwa [backend_define_of_ne e r' r _ hr]

/-- A group that every representation has is not installed again, whatever is installed first. -/
theorem install_behind (h : ¬∃ r, (e.backend r).hasGroup g.name = false) (g' : Glossary) :
    g.install e = (e, none) ∧ g.install (g'.install e).1 = ((g'.install e).1, none) := by
  have hhas : ∀ r, (e.backend r).hasGroup g.name = true := by
    intro r
    rw [← Bool.not_eq_false]
    exact fun hlacks => h ⟨r, hlacks⟩
  exact ⟨Glossary.installAll_of_hasGroup fun r _ => hhas r,
    Glossary.installAll_of_hasGroup fun r _ => hasGroup_install (hhas r) g'⟩

/-- If other groups disregard the names of two glossaries that do not call each other, then either
fails for the same reason with the other in front of it and without, and the two orders mean the
same by all calls. -/
theorem install_comm (hcomplete : e.IsComplete)
    (hname : g'.name ≠ g.name) (hg : ¬g.Calls g'.name) (hg' : ¬g'.Calls g.name)
    (he : e.Disregards g.name) (he' : e.Disregards g'.name) :
    (g'.install (g.install e).1).2 = (g'.install e).2 ∧
      (g.install (g'.install e).1).2 = (g.install e).2 ∧
      ∀ r, ((g'.install (g.install e).1).1.target r).AgreesOn (fun _ => True)
        ((g.install (g'.install e).1).1.target r) := by
  by_cases hlacks : ∃ r, (e.backend r).hasGroup g.name = false
  · by_cases hlacks' : ∃ r, (e.backend r).hasGroup g'.name = false
    · have hfirst : e.AgreesOff g.name (g.install e).1 :=
        (AgreesOff.refl hcomplete (he hlacks)).installAll_right rfl _
      have hfirst' : e.AgreesOff g'.name (g'.install e).1 :=
        (AgreesOff.refl hcomplete (he' hlacks')).installAll_right rfl _
      obtain ⟨hfault', hboth⟩ := hfirst.installAll hname hg' Representation.all
      obtain ⟨hfault, hboth'⟩ := hfirst'.installAll hname.symm hg Representation.all
      have hlast : (g'.install e).1.AgreesOff g.name (g.install (g'.install e).1).1 :=
        (AgreesOff.refl hboth.complete hboth.disregards).installAll_right rfl _
      have hlast' : (g.install e).1.AgreesOff g'.name (g'.install (g.install e).1).1 :=
        (AgreesOff.refl hboth'.complete hboth'.disregards).installAll_right rfl _
      -- off either name both orders agree with the engine that has the other glossary alone
      exact ⟨hfault'.symm, hfault.symm,
        (hboth.join hlast).target_agreesOn_all (hlast'.join hboth') hname.symm⟩
    · obtain ⟨hnone, hbehind⟩ := install_behind hlacks' g
      rw [hnone, hbehind]
      exact ⟨rfl, rfl, fun r => .refl _⟩
  · obtain ⟨hnone, hbehind⟩ := install_behind hlacks g'
    rw [hnone, hbehind]
    exact ⟨rfl, rfl, fun r => .refl _⟩

/-- Behind an installation that succeeded, no glossary of the same name changes anything, and what
representations had under the name before is still there. Two glossaries of different names that do
not call each other fail or succeed independently of each other, and the order in which they are
installed shows in nothing that is written out, whatever the source and the options. For that the
registry must know all representations, as that of a new engine does, and the other groups must
disregard both names. -/
theorem installations_settle_and_commute (e : Engine) {g : Glossary}
    (hg : (g.install e).2 = none) :
    (∀ g' : Glossary, g'.name = g.name →
      g'.install (g.install e).1 = ((g.install e).1, none)) ∧
    (∀ r, (e.backend r).hasGroup g.name = true → e.SameIn r (g.install e).1) ∧
    ∀ g' : Glossary, g'.name ≠ g.name → ¬g.Calls g'.name → ¬g'.Calls g.name →
      e.IsComplete → e.Disregards g.name → e.Disregards g'.name →
      (g'.install (g.install e).1).2 = (g'.install e).2 ∧
      (g.install (g'.install e).1).2 = none ∧
      ∀ r source options,
        (g'.install (g.install e).1).1.parse r source options =
          (g.install (g'.install e).1).1.parse r source options ∧
        ∀ offset, (g'.install (g.install e).1).1.parseCall r source offset options =
          (g.install (g'.install e).1).1.parseCall r source offset options := by
  refine ⟨?_, fun r hhas => Glossary.sameIn_installAll (.inl hhas), ?_⟩
  · intro g' hname
    refine Glossary.installAll_of_hasGroup fun r hr => ?_
    rw [hname]
    exact Glossary.hasGroup_installAll hg hr
  · intro g' hname hcalls hcalls' hcomplete he he'
    obtain ⟨hfault', hfault, htargets⟩ := install_comm hcomplete hname hcalls hcalls' he he'
    refine ⟨hfault', hfault.trans hg, fun r source options => ⟨?_, fun offset => ?_⟩⟩
    · exact (htargets r).parse source options fun _ _ => trivial
    · exact (htargets r).parseCall source options fun _ _ => trivial

/-- Symbols may be installed in either order in an engine that has a glossary and another group,
whose renderer asks for the subscripts of plain text, and whose marks were changed. -/
theorem installations_settle_and_commute_sample :
    let base : Glossary :=
      { name := "base", description := "zeroth", expressions := .ofStrings [("q", "Q$sub(0)")] }
    let twice : Definition :=
      { name := "twice", description := "writes its argument, and once more as a subscript"
        render := fun scope call => do
          return call.text ++ (← (scope.peers .plain).target.invoke "sub" [call.key] [call.text]) }
    let e := (((create false .empty).withGlossaries [base]).change [.setMarks .html ["b"]]).define
      .plain twice
    let g : Glossary :=
      { name := "one", description := "first", expressions := .ofStrings [("a", "1")] }
    let g' : Glossary :=
      { name := "two", description := "second", expressions := .ofStrings [("k", "x$sub(2)")] }
    (g.install e).2 = none ∧ g'.name ≠ g.name ∧ ¬g.Calls g'.name ∧ ¬g'.Calls g.name ∧
      e.IsComplete ∧ e.Disregards g.name ∧ e.Disregards g'.name ∧
      g.install (g.install e).1 = ((g.install e).1, none) ∧
      (g'.install (g.install e).1).1.parse .plain "$twice($two(k))$one(a)$base(q)" =
        .ok "x_2_x_21Q_0" ∧
      (g.install (g'.install e).1).1.parse .plain "$twice($two(k))$one(a)$base(q)" =
        .ok "x_2_x_21Q_0" := by
  intro base twice e g g'
  have hg : (g.install e).2 = none := by decide +kernel
  have hname : g'.name ≠ g.name := by decide
  have hcalls : ¬g.Calls g'.name := by decide +kernel
  have hcalls' : ¬g'.Calls g.name := by decide +kernel
  have hcomplete : e.IsComplete :=
    (((isComplete_create false .empty).withGlossaries [base]).change _).define .plain twice
  have he : ∀ name : Text, name ≠ "sub" → e.Disregards name := by
    intro name hsub
    refine (((disregards_create false .empty name).withGlossaries [base]).change _).define .plain ?_
    intro _ scope scope' hscope callee _ keys texts
    have hinvoke := (hscope.peers .plain).target.invoke "sub" hsub.symm
    show (do return _ ++ (← (scope.peers .plain).target.invoke "sub" _ _)) = _
    rw [hinvoke]
  have hone : e.Disregards g.name := he _ (by decide)
  have htwo : e.Disregards g'.name := he _ (by decide)
  obtain ⟨hagain, -, hcomm⟩ := installations_settle_and_commute e hg
  obtain ⟨-, -, hparse⟩ := hcomm g' hname hcalls hcalls' hcomplete hone htwo
  have hout : (g'.install (g.install e).1).1.parse .plain "$twice($two(k))$one(a)$base(q)" =
      .ok "x_2_x_21Q_0" := by
    decide +kernel
  exact ⟨hg, hname, hcalls, hcalls', hcomplete, hone, htwo, hagain g rfl, hout,
    (hparse .plain _ {}).1.symm.trans hout⟩

/-- A renderer that writes expressions of its own making out may call a group that no expression
names, and one may ask whether there is such a group. So the order of installation shows. -/
theorem order_shows :
    let re : Definition :=
      { name := "re", description := "writes its argument as a subscript"
        render := fun scope call => scope.parse ("$sub(" ++ call.key ++ ")") }
    let probe : Definition :=
      { name := "probe", description := "asks for a group"
        render := fun scope _ =>
          .ok (if (scope.peers .plain).target.known "one" then "yes" else "no") }
    let e := ((create false .empty).define .plain re).define .plain probe
    let g : Glossary :=
      { name := "one", description := "first", expressions := .ofStrings [("a", "1")] }
    let g' : Glossary :=
      { name := "two", description := "second"
        expressions := .ofStrings [("k", "$re(\\$one\\(a\\))"), ("l", "$probe(x)")] }
    g'.name ≠ g.name ∧ ¬g.Calls g'.name ∧ ¬g'.Calls g.name ∧
      (g.install e).2 = none ∧ (g'.install (g.install e).1).2 = none ∧
      (g'.install e).2 = none ∧ (g.install (g'.install e).1).2 = none ∧
      (g'.install (g.install e).1).1.parse .plain "$two(k), $two(l)" = .ok "_1, yes" ∧
      (g.install (g'.install e).1).1.parse .plain "$two(k), $two(l)" = .ok "_a, no" := by
  intro re probe e g g'
  refine ⟨by decide, by decide +kernel, by decide +kernel, by decide +kernel, by decide +kernel,
    by decide +kernel, by decide +kernel, by decide +kernel, by decide +kernel⟩

end Engine

end Sigil
