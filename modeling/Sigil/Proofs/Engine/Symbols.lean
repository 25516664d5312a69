import Sigil.Proofs.Backend.LastPass
import Sigil.Proofs.Engine.Installation
import Sigil.Proofs.Expression.SingleCall

/-!
# Symbols of a glossary

A call of a group that a glossary brought prints what the table has for its key, behind the last
pass (`Engine.parse_symbol`). The code went through the last pass already when the expression was
written out. In plain text, Unicode and HTML that makes no difference, so that a symbol prints as
its expression does (`Engine.symbol_prints_expression`). In LaTeX the blanks of the expression get a
second backslash (`Engine.latex_symbol_protects_blanks`).
-/

namespace Sigil

open CodeUnit (space backslash)

namespace Backend

variable {b : Backend} {reg : Registry} {peers : Representation → Peer}

/-- What a backend writes out has gone through its last pass. -/
theorem exists_translate_of_parse {source out : Text} {options : Options}
    (h : (b.target reg peers).parse source options = .ok out) :
    ∃ rendered fragments, out = b.translate reg rendered fragments := by
  obtain ⟨fragments, -, hout⟩ := bind_eq_ok_iff.mp h
  cases hout
  exact ⟨_, fragments, b.output_target reg peers fragments⟩

/-- A call of a group that looks its argument up is written out as the code in its table, behind the
last pass. -/
theorem parse_callOf {callee key code description : Text} (hcallee : callee.isName = true)
    (hkey : key ≠ []) (htrim : key.trim = key)
    (hgroup : b.groups.get? callee = some ⟨.lookup, description, .exactly 1⟩)
    (hcode : reg.lookup b.representation callee key = .ok code) (options : Options) :
    (b.target reg peers).parse (Text.callOf callee key) options =
      .ok (b.translate reg code [⟨.call, code⟩]) := by
  have hknown : (b.target reg peers).known callee = true := hasGroup_iff.mpr ⟨_, hgroup⟩
  have hrender : ∀ text, (b.target reg peers).invoke callee [key] [text] = .ok code := by
    intro text
    rw [invoke_eq_render hgroup reg peers rfl]
    show reg.lookup b.representation callee key.trim = _
    rw [htrim, hcode]
  rw [Target.parse_callOf hcallee hkey hknown options (hrender _), output_target,
    Fragment.concat, List.flatMap_singleton]

end Backend

namespace Engine

variable {e e' : Engine} {g : Glossary} {key expression : Text}

/-- A symbol of a group that was just installed is written out as its code, behind the last pass. -/
theorem parse_symbol (he : e.Local) {strict : Bool} (hsame : e.Uniform strict)
    (hname : g.name.isName = true) (hnew : ∀ r, (e.backend r).hasGroup g.name = false)
    (hinstall : g.install e = (e', none)) (hexpression : g.expressions.get? key = some expression)
    (hkey : key ≠ []) (htrim : key.trim = key) (r : Representation) (options : Options) :
    ∃ code, g.code (e.target r) key expression = .ok code ∧
      e'.parse r (Text.callOf g.name key) options =
        .ok ((e'.backend r).translate e'.registry code [⟨.call, code⟩]) := by
  obtain ⟨mapping, hmapping, hinstalled⟩ := Glossary.isInstalled_install he hnew hinstall r
  obtain ⟨code, hcode, hentry⟩ := Glossary.exists_code_of_mapping hmapping hexpression
  have hrepresentation : (e'.backend r).representation = r := (hsame.of_install hinstall r).1
  refine ⟨code, hcode, Backend.parse_callOf hname hkey htrim hinstalled.group ?_ options⟩
  rw [hrepresentation, Registry.lookup_eq_ok_iff]
  exact ⟨_, hinstalled.table?, hentry⟩

/-- A symbol prints as its expression did just before the group was installed, or as the spelling
that the representation has for it, strictly or not. The group may be any with a new name that an
engine installs, whatever happened to the engine's tables and marks before. -/
theorem symbol_prints_expression {strict : Bool} {reg : Registry} {gs : List Glossary}
    {changes : List Registry.Change}
    (he : e = ((create strict reg).withGlossaries gs).change changes)
    (hname : g.name.isName = true) (hnew : ∀ r, (e.backend r).hasGroup g.name = false)
    (hinstall : g.install e = (e', none)) (hexpression : g.expressions.get? key = some expression)
    (hkey : key ≠ []) (htrim : key.trim = key) {r : Representation} (hr : r ≠ .latex)
    (options : Options) :
    match (g.spellings r).get? key with
    | none => ∃ out, e.parse r expression { strict := some false } = .ok out ∧
        e'.parse r (Text.callOf g.name key) options = .ok out
    | some spelling => e'.parse r (Text.callOf g.name key) options =
        .ok ((e'.backend r).translate e'.registry spelling) := by
  have hlocal : e.Local := he ▸ ((local_create strict reg).withGlossaries gs).change changes
  have huniform : e.Uniform strict := he ▸ (uniform_create strict reg).withGlossaries gs
  have huniform' : e'.Uniform strict := huniform.of_install hinstall
  -- without marks to reorder the last pass takes the output alone, and does its work at once
  have hpass : ∀ (code : Text) fragments, (e'.backend r).translate e'.registry code fragments =
      (e'.backend r).translate e'.registry code := by
    intro code fragments
    simp only [Backend.translate, (huniform' r).1]
    cases r <;> first | rfl | exact absurd rfl hr
  have htwice : ∀ {out rendered : Text} {fragments},
      out = (e.backend r).translate e.registry rendered fragments →
        (e'.backend r).translate e'.registry out = out := by
    intro out rendered fragments hout
    subst hout
    simp only [Backend.translate, (huniform r).1, (huniform' r).1]
    cases r with
    | plain => exact Plain.translate_translate rendered
    | unicode => rfl
    | html => exact Html.translate_translate rendered
    | latex => exact absurd rfl hr
  obtain ⟨code, hcode, hparse⟩ :=
    parse_symbol hlocal huniform hname hnew hinstall hexpression hkey htrim r options
  rw [hpass] at hparse
  rw [Glossary.code, (huniform.target r).1] at hcode
  split at hcode
  · rename_i spelling hspelling
    cases hcode
    rw [hspelling]
    exact hparse
  · rename_i hspelling
    obtain ⟨rendered, fragments, hout⟩ := Backend.exists_translate_of_parse hcode
    rw [hspelling]
    refine ⟨code, hcode, ?_⟩
    rw [hparse, htwice hout]

/-- A glossary for examples: the key of the one symbol has a comma in it, its expression has a
blank, and the other symbol is spelled by hand in HTML. -/
def sampleGlossary : Glossary where
  name := "foo"
  description := "examples"
  expressions := Mapping.ofStrings [("a,b", "x y$sub(2)"), ("h", "h")]
  spellings
    | .html => Mapping.ofStrings [("h", "ℎ")]
    | _ => {}

/-- An engine for examples, without glossaries. -/
def sampleEngine : Engine := ((create false .empty).withGlossaries []).change []

theorem hasGroup_sampleGlossary (r : Representation) :
    (sampleEngine.backend r).hasGroup sampleGlossary.name = false := by
  cases r <;> decide +kernel

theorem install_sampleGlossary :
    sampleGlossary.install sampleEngine = ((sampleGlossary.install sampleEngine).1, none) := by
  have hnone : (sampleGlossary.install sampleEngine).2 = none := by decide +kernel
  exact Prod.ext rfl hnone

/-- In Unicode a symbol prints as its expression, and in HTML its own spelling is used. -/
theorem symbol_prints_expression_sample :
    let e := ((create false .empty).withGlossaries []).change []
    let e' := (sampleGlossary.install e).1
    sampleGlossary.name.isName = true ∧
      (∀ r, (e.backend r).hasGroup sampleGlossary.name = false) ∧
      sampleGlossary.install e = (e', none) ∧
      Text.callOf sampleGlossary.name "a,b" = "$foo(a\\,b)" ∧
      e.parse .unicode "x y$sub(2)" { strict := some false } = .ok "x y₂" ∧
      e'.parse .unicode "$foo(a\\,b)" { strict := some true } = .ok "x y₂" ∧
      e'.parse .html "$foo(h)" { strict := some true } = .ok "&#x210e;" := by
  intro e e'
  have hname : sampleGlossary.name.isName = true := by decide
  have hnew : ∀ r, (e.backend r).hasGroup sampleGlossary.name = false :=
    hasGroup_sampleGlossary
  have hinstall : sampleGlossary.install e = (e', none) := install_sampleGlossary
  have hsource : Text.callOf sampleGlossary.name "a,b" = "$foo(a\\,b)" := by decide
  have hparse : e.parse .unicode "x y$sub(2)" { strict := some false } = .ok "x y₂" := by
    decide +kernel
  have hexpression : sampleGlossary.expressions.get? "a,b" = some (Text.ofString "x y$sub(2)") := by
    decide
  have hspelled : sampleGlossary.expressions.get? "h" = some (Text.ofString "h") := by decide
  obtain ⟨out, hout, hsymbol⟩ := symbol_prints_expression (r := .unicode) rfl hname hnew hinstall
    hexpression (by decide) (by decide) (by decide) { strict := some true }
  rw [hparse] at hout
  cases hout
  have hhtml : e'.parse .html (Text.callOf sampleGlossary.name "h") { strict := some true } =
      .ok ((e'.backend .html).translate e'.registry "ℎ") :=
    symbol_prints_expression (r := .html) rfl hname hnew hinstall
      hspelled (by decide) (by decide) (by decide) { strict := some true }
  refine ⟨hname, hnew, hinstall, hsource, hparse, hsource ▸ hsymbol, ?_⟩
  have hcode : (e'.backend .html).translate e'.registry "ℎ" = "&#x210e;" := by decide +kernel
  rw [hcode] at hhtml
  exact hhtml

/-- In LaTeX a symbol without a spelling of its own is written out as its expression with a
backslash in front of every blank, so that it prints as its expression if that has no blanks. -/
theorem latex_symbol_protects_blanks {strict : Bool} {reg : Registry} {gs : List Glossary}
    {changes : List Registry.Change}
    (he : e = ((create strict reg).withGlossaries gs).change changes)
    (hname : g.name.isName = true) (hnew : ∀ r, (e.backend r).hasGroup g.name = false)
    (hinstall : g.install e = (e', none)) (hexpression : g.expressions.get? key = some expression)
    (hkey : key ≠ []) (htrim : key.trim = key) (hspelling : (g.spellings .latex).get? key = none)
    (options : Options) :
    ∃ out, e.parse .latex expression { strict := some false } = .ok out ∧
      e'.parse .latex (Text.callOf g.name key) options = .ok (out.flatMap Latex.protect) ∧
      (e'.parse .latex (Text.callOf g.name key) options = .ok out ↔ space ∉ out) := by
  have hlocal : e.Local := he ▸ ((local_create strict reg).withGlossaries gs).change changes
  have huniform : e.Uniform strict := he ▸ (uniform_create strict reg).withGlossaries gs
  have huniform' : e'.Uniform strict := huniform.of_install hinstall
  obtain ⟨out, hout, hparse⟩ :=
    parse_symbol hlocal huniform hname hnew hinstall hexpression hkey htrim .latex options
  rw [Glossary.code, (huniform.target .latex).1, hspelling] at hout
  obtain ⟨rendered, fragments, htranslate⟩ := Backend.exists_translate_of_parse hout
  have htwice : (e'.backend .latex).translate e'.registry out [⟨.call, out⟩] =
      out.flatMap Latex.protect := by
    simp only [Backend.translate, (huniform .latex).1] at htranslate
    simp only [Backend.translate, (huniform' .latex).1, Latex.translate_call]
    rw [htranslate]
    exact Latex.mapPoints_translatePoint_twice _
  rw [htwice] at hparse
  refine ⟨out, hout, hparse, ?_⟩
  rw [hparse, Except.ok.injEq]
  exact Latex.flatMap_protect_eq_iff

/-- A symbol whose expression has no blanks prints as its expression. -/
theorem latex_symbol_protects_blanks_sample :
    let e := ((create false .empty).withGlossaries []).change []
    let e' := (sampleGlossary.install e).1
    (∀ r, (e.backend r).hasGroup sampleGlossary.name = false) ∧
      sampleGlossary.install e = (e', none) ∧
      e.parse .latex "h" { strict := some false } = .ok "h" ∧
      e'.parse .latex "$foo(h)" { strict := some true } = .ok "h" := by
  intro e e'
  have hnew : ∀ r, (e.backend r).hasGroup sampleGlossary.name = false :=
    hasGroup_sampleGlossary
  have hinstall : sampleGlossary.install e = (e', none) := install_sampleGlossary
  have hparse : e.parse .latex "h" { strict := some false } = .ok "h" := by decide +kernel
  have hsource : Text.callOf sampleGlossary.name "h" = "$foo(h)" := by decide
  have hexpression : sampleGlossary.expressions.get? "h" = some (Text.ofString "h") := by decide
  obtain ⟨out, hout, -, hprints⟩ := latex_symbol_protects_blanks (g := sampleGlossary) rfl
    (by decide) hnew hinstall hexpression (by decide) (by decide) (by decide)
    { strict := some true }
  rw [hparse] at hout
  cases hout
  exact ⟨hnew, hinstall, hparse, hsource ▸ hprints.mpr (by decide)⟩

/-- A symbol whose expression has a blank does not: the line is broken in front of the blank. -/
theorem latex_symbol_breaks_line :
    let e := ((create false .empty).withGlossaries []).change []
    let e' := (sampleGlossary.install e).1
    sampleGlossary.name.isName = true ∧
      (∀ r, (e.backend r).hasGroup sampleGlossary.name = false) ∧
      (sampleGlossary.install e).2 = none ∧
      sampleGlossary.expressions.get? "a,b" = some (Text.ofString "x y$sub(2)") ∧
      (sampleGlossary.spellings .latex).get? "a,b" = none ∧
      Text.trim "a,b" = "a,b" ∧
      Text.callOf sampleGlossary.name "a,b" = "$foo(a\\,b)" ∧
      e.parse .latex "x y$sub(2)" { strict := some false } = .ok "x\\ y_\x7b2\x7d" ∧
      e'.parse .latex "$foo(a\\,b)" = .ok "x\\\\ y_\x7b2\x7d" := by
  intro e e'
  have hnew : ∀ r, (e.backend r).hasGroup sampleGlossary.name = false :=
    hasGroup_sampleGlossary
  have hparse : e.parse .latex "x y$sub(2)" { strict := some false } =
      .ok "x\\ y_\x7b2\x7d" := by
    decide +kernel
  have hsymbol : e'.parse .latex "$foo(a\\,b)" = .ok "x\\\\ y_\x7b2\x7d" := by decide +kernel
  exact ⟨by decide, hnew, by decide +kernel, by decide, by decide, by decide, by decide, hparse,
    hsymbol⟩

end Engine

end Sigil
