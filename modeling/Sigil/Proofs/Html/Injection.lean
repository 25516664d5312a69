import Sigil.Proofs.Engine.Creation
import Sigil.Proofs.Html.Groups
import Sigil.Proofs.Markdown.InlineRule

/-!
# No markup enters from a source

An engine writes HTML that is properly nested, whatever the source, as long as the text of the
source is escaped (`Engine.html_isNested`). Glossaries keep it so: their codes are expressions
without reserved units, which the engine wrote out itself, so that they are markup of the same kind.
-/

namespace Sigil

open Html (IsNested isInert isPlain)

/-! ## Engines -/

/-- The backend for HTML is safe over the registry. -/
def Engine.IsSafe (e : Engine) : Prop := (e.backend .html).IsSafe e.registry

namespace Engine

/-- An engine with the built-in groups is safe, whatever its registry held before. -/
theorem isSafe_create (strict : Bool) (reg : Registry) : (create strict reg).IsSafe := by
  have hlatex : ∀ reg id, (Backend.prepare .latex reg).table? .html id = reg.table? .html id :=
    Backend.table?_prepare_of_ne (by decide) (by decide)
  have hhtml : ∀ reg, (Backend.standard .html strict).IsSafe (Backend.prepare .html reg) :=
    Backend.isSafe_standard strict
  rw [Engine.IsSafe, backend_create, registry_create]
  exact (hhtml _).of_table? (hlatex _)

/-- A group keeps an engine safe if it is safe, or if it is added to another representation. -/
theorem IsSafe.define {e : Engine} (h : e.IsSafe) {r : Representation} {d : Definition}
    (hd : r = .html → d.IsSafe) : (e.define r d).IsSafe := by
  by_cases hr : r = .html
  · subst hr
    exact Backend.IsSafe.define h (hd rfl)
  · rw [Engine.IsSafe, backend_define_of_ne e r .html d (Ne.symm hr)]
    exact Backend.IsSafe.of_table? h fun id =>
      d.table?_install e.registry fun hand => hr hand.1.symm

end Engine

/-! ## Glossaries -/

namespace Glossary

/-- A glossary has no reserved units in its expressions, and spells symbols in HTML by markup. -/
structure IsSafe (g : Glossary) : Prop where
  expressions : ∀ entry ∈ g.expressions.entries, entry.2.all isInert = true
  spellings : (g.spellings .html).IsNested

variable {g : Glossary}

/-- The code of a symbol is markup. -/
theorem IsSafe.code (h : g.IsSafe) {b : Backend} {reg : Registry} (hb : b.IsSafe reg)
    {peers : Representation → Peer} {key expression code : Text}
    (hexpression : expression.all isInert = true)
    (hcode : g.code (b.target reg peers) key expression = .ok code) : IsNested isInert code := by
  have hrepresentation : (b.target reg peers).representation = .html := hb.representation
  unfold Glossary.code at hcode
  rw [hrepresentation] at hcode
  split at hcode
  · rename_i spelling hspelling
    cases hcode
    exact h.spellings key _ hspelling
  · have hunits : ∀ u ∈ expression, isInert u = true := List.all_eq_true.mp hexpression
    have houtput := hb.parse hunits (fun t ht => .of_all (List.all_eq_true.mpr ht)) hcode
    refine houtput.mono ?_
    intro u hu
    simp only [isPlain, Bool.and_eq_true] at hu
    exact hu.1.1

/-- The codes of all symbols are markup. -/
theorem IsSafe.mapping (h : g.IsSafe) {b : Backend} {reg : Registry} (hb : b.IsSafe reg)
    {peers : Representation → Peer} {mapping : Mapping}
    (hmapping : g.mapping (b.target reg peers) = .ok mapping) : mapping.IsNested := by
  obtain ⟨entries, hentries, hresult⟩ := bind_eq_ok_iff.mp hmapping
  cases hresult
  refine Mapping.isNested_ofList ?_
  intro entry hentry
  obtain ⟨⟨key, expression⟩, hmem, hentry⟩ := exists_of_mem_mapM hentries hentry
  obtain ⟨code, hcode, hresult⟩ := bind_eq_ok_iff.mp hentry
  cases hresult
  exact h.code hb (h.expressions _ hmem) hcode

/-- Adding the group of a glossary to a representation keeps an engine safe. -/
theorem IsSafe.define (h : g.IsSafe) {e : Engine} (he : e.IsSafe) {r : Representation}
    {mapping : Mapping} (hmapping : g.mapping (e.target r) = .ok mapping) :
    (e.define r (g.definition mapping)).IsSafe := by
  refine Engine.IsSafe.define he ?_
  intro hr
  subst hr
  exact .inr ⟨rfl, mapping, rfl, h.mapping he hmapping⟩

end Glossary

namespace Symbols

/-- The physical constants have no reserved units in their expressions. -/
theorem isSafe_physics : physics.IsSafe := by
  refine ⟨Mapping.forall_mem_ofStrings ?_, fun _ _ h => by cases h⟩
  decide +kernel

/-- The particles of the Standard Model have no reserved units in their expressions. -/
theorem isSafe_standardModel : standardModel.IsSafe := by
  refine ⟨Mapping.forall_mem_ofStrings ?_, fun _ _ h => by cases h⟩
  decide +kernel

theorem isSafe_of_mem_glossaries : ∀ g ∈ glossaries, g.IsSafe :=
  List.forall_mem_cons.mpr ⟨isSafe_physics, List.forall_mem_singleton.mpr isSafe_standardModel⟩

end Symbols

/-! ## Output -/

namespace Engine

/-- Glossaries keep an engine safe. -/
theorem IsSafe.withGlossaries {gs : List Glossary} (hgs : ∀ g ∈ gs, g.IsSafe) {e : Engine}
    (he : e.IsSafe) : (e.withGlossaries gs).IsSafe :=
  withGlossaries_induction (fun g hg _ _ _ he _ hmapping => (hgs g hg).define he hmapping) he

/-- A call that the rule for Markdown finds is written by a safe engine as properly nested markup,
unless the page may hold HTML. Text that was pending becomes a token, but not one for markup. -/
theorem IsSafe.inlineRule {e : Engine} (he : e.IsSafe) {strict : Option Bool} {σ : Type}
    {reader : Markdown.Reader σ} (hreader : reader.IsLawful) {silent found : Bool} {s s' : σ}
    (hrule : Markdown.rule reader (e.target .html) ⟨false, strict⟩ silent s = .ok found s') :
    ∀ token ∈ reader.tokens s', token ∈ reader.tokens s ∨
      token.type = Markdown.Token.textType ∨ IsNested isPlain token.content := by
  intro token htoken
  cases found with
  | false =>
      rw [Markdown.eq_of_rule_ok_false hrule] at htoken
      exact .inl htoken
  | true =>
      obtain ⟨content, stop, hcall, rfl⟩ := Markdown.parseCall_of_rule hrule
      cases silent with
      | true =>
          rw [hreader.tokens_behindCall_silent] at htoken
          exact .inl htoken
      | false =>
          obtain ⟨pending, htext, htokens⟩ := hreader.tokens_behindCall content stop s
          rw [htokens, List.mem_append, List.mem_append, Option.mem_toList,
            List.mem_singleton] at htoken
          obtain (hold | hpending) | rfl := htoken
          · exact .inl hold
          · exact .inr (.inl (htext token hpending))
          · have hat : (e.target .html).parseCallAt (reader.block s) (.ofNat (reader.pos s))
                (Markdown.Settings.options ⟨false, strict⟩) = .ok (content, stop) := hcall
            exact .inr (.inr (Backend.IsSafe.parseCallAt he (fun _ _ => trivial)
              (fun t _ => Html.isNested_escape t) hat))

/-- An engine for examples, with the physical constants. -/
def sample : Engine := (create false .empty).withGlossaries [Symbols.physics]

/-- No markup enters from a source. Whatever an engine with built-in groups and any of the
glossaries writes in HTML with the source's text escaped is properly nested: whole sources, single
calls, and the tokens that the rule for Markdown adds. -/
theorem html_isNested (strict : Bool) (reg : Registry) (gs : List Glossary)
    (hgs : gs ⊆ Symbols.glossaries) (strictness : Option Bool) :
    let engine := (create strict reg).withGlossaries gs
    let options : Options := ⟨strictness, Html.escape⟩
    (∀ source output, engine.parse .html source options = .ok output →
      IsNested isPlain output) ∧
    (∀ source offset output stop,
      (engine.target .html).parseCallAt source offset options = .ok (output, stop) →
        IsNested isPlain output) ∧
    ∀ {σ : Type} (reader : Markdown.Reader σ), reader.IsLawful → ∀ silent s found s',
      Markdown.rule reader (engine.target .html) ⟨false, strictness⟩ silent s = .ok found s' →
        ∀ token ∈ reader.tokens s', token ∈ reader.tokens s ∨
          token.type = Markdown.Token.textType ∨ IsNested isPlain token.content := by
  intro engine options
  have hengine : engine.IsSafe := by
    show ((create strict reg).withGlossaries gs).IsSafe
    refine (isSafe_create strict reg).withGlossaries ?_
    intro g hg
    exact Symbols.isSafe_of_mem_glossaries g (hgs hg)
  -- the source may hold any units, since escaping takes care of all of them
  have hescape : ∀ t : Text, (∀ u ∈ t, True) → IsNested isInert (options.escape t) :=
    fun t _ => Html.isNested_escape t
  refine ⟨?_, ?_, ?_⟩
  · intro source output hparse
    exact Backend.IsSafe.parse hengine (fun _ _ => trivial) hescape hparse
  · intro source offset output stop hparse
    exact Backend.IsSafe.parseCallAt hengine (fun _ _ => trivial) hescape hparse
  · intro σ reader hreader silent s found s' hrule
    exact hengine.inlineRule hreader hrule

/-- The reserved units of these sources come out as references, next to the markup of the calls. -/
theorem html_isNested_sample :
    let line : Markdown.Line :=
      { source := "<$phy(k_B)", pos := 1, stop := 10, pending := "<" }
    let text : Markdown.Token := ⟨"text", "", 0, "", "<"⟩
    let call : Markdown.Token := ⟨"notation", "", 0, "$phy(k_B)", "k<sub>B</sub>"⟩
    [Symbols.physics] ⊆ Symbols.glossaries ∧
      sample.parse .html "<$sub(<)$phy(G)\n" ⟨none, Html.escape⟩ =
        .ok "&lt;<sub>&lt;</sub>G<br>" ∧
      IsNested isPlain "&lt;<sub>&lt;</sub>G<br>" ∧
      (sample.target .html).parseCallAt "<$sup(\")" 1 ⟨none, Html.escape⟩ =
        .ok ("<sup>&quot;</sup>", 8) ∧
      IsNested isPlain "<sup>&quot;</sup>" ∧
      Markdown.Line.reader.IsLawful ∧
      Markdown.rule Markdown.Line.reader (sample.target .html) ⟨false, none⟩ false line =
        .ok true { line with pos := 10, pending := [], tokens := [text, call] } ∧
      IsNested isPlain "k<sub>B</sub>" := by
  intro line text call
  have hgs : [Symbols.physics] ⊆ Symbols.glossaries := List.cons_subset_cons _ (List.nil_subset _)
  have hlawful := Markdown.Line.isLawful_reader
  obtain ⟨hsource, hcall, hrule⟩ := html_isNested false .empty [Symbols.physics] hgs none
  have hresults :
      (sample.parse .html "<$sub(<)$phy(G)\n" ⟨none, Html.escape⟩).toOption =
        some "&lt;<sub>&lt;</sub>G<br>" ∧
      ((sample.target .html).parseCallAt "<$sup(\")" 1 ⟨none, Html.escape⟩).toOption =
        some (Text.ofString "<sup>&quot;</sup>", 8) ∧
      ((sample.target .html).parseCall "<$phy(k_B)" 1 ⟨none, Html.escape⟩).toOption =
        some (Text.ofString "k<sub>B</sub>", 10) := by
    decide +kernel
  have hsource' := eq_ok_of_toOption hresults.1
  have hcall' := eq_ok_of_toOption hresults.2.1
  have hrule' : Markdown.rule Markdown.Line.reader (sample.target .html) ⟨false, none⟩ false line =
      .ok true { line with pos := 10, pending := [], tokens := [text, call] } := by
    have hcall : (sample.target .html).parseCall (Markdown.Line.reader.block line)
        (Markdown.Line.reader.pos line) (Markdown.Settings.options ⟨false, none⟩) =
        .ok ("k<sub>B</sub>", 10) := eq_ok_of_toOption hresults.2.2
    rw [Markdown.rule_eq, hcall]
    rfl
  refine ⟨hgs, hsource', hsource _ _ hsource', hcall', hcall _ _ _ _ hcall', hlawful, hrule', ?_⟩
  obtain hold | htext | hnested := hrule _ hlawful _ _ _ _ hrule' call (by simp [Markdown.Line.reader])
  · cases hold
  · exact absurd htext (by decide)
  · exact hnested

end Engine

end Sigil
