import Sigil.Proofs.Backend.Concatenation
import Sigil.Proofs.Engine.Independence
import Sigil.Proofs.Engine.Nesting
import Sigil.Proofs.Engine.WellFormed
import Sigil.Proofs.Expression.Invocations

/-!
# No character is printed as two

The last pass goes over a text and replaces its code points one by one
(`Backend.translate_eq_mapPoints`). For a whole source that text is a string, in LaTeX also after
the marks were moved, so that the pass meets characters and no halves of them
(`Backend.exists_string_of_pass`). Escaping for HTML does not come between the halves of a pair
either. The result for targets and for the engine is `Engine.prints_characters`.
-/

namespace Sigil

open CodeUnit
open Text (IsWhole)

/-! ## Escaping -/

namespace Html

/-- A half of a pair is not escaped. -/
theorem escapeUnit_of_isHalf {u : CodeUnit} (h : u.isHalf = true) : escapeUnit u = [u] := by
  rw [escapeUnit, if_neg (ne_of_isHalf h rfl), if_neg (ne_of_isHalf h rfl),
    if_neg (ne_of_isHalf h rfl), if_neg (ne_of_isHalf h rfl)]

/-- Whole text is escaped to whole text. -/
theorem isWhole_escape {t : Text} (h : t.IsWhole) : (escape t).IsWhole := by
  unfold escape
  induction h with
  | nil => exact .nil
  | @unit u t hu _ ih =>
      rw [List.flatMap_cons]
      refine IsWhole.append ?_ ih
      unfold escapeUnit
      split
      · exact Text.isWhole_ofString _
      split
      · exact Text.isWhole_ofString _
      split
      · exact Text.isWhole_ofString _
      split
      · exact Text.isWhole_ofString _
      · exact .unit hu .nil
  | @pair u v t hu hv _ ih =>
      rw [List.flatMap_cons, List.flatMap_cons,
        escapeUnit_of_isHalf (by rw [isHalf, hu, Bool.true_or]),
        escapeUnit_of_isHalf (by rw [isHalf, hv, Bool.or_true])]
      exact .pair hu hv ih

end Html

/-- Text that is left as it is or escaped for HTML is as whole as it was, also where the halves of a
pair are escaped one by one. -/
theorem Manner.isWhole_escape (manner : Manner)
    (h : manner.escape = id ∨ manner.escape = Html.escape) :
    (∀ t : Text, t.IsWhole → (manner.escape t).IsWhole) ∧
      ∀ u v : CodeUnit, u.isLeading = true → v.isTrailing = true →
        (manner.escape [u] ++ manner.escape [v]).IsWhole := by
  rcases h with hid | hhtml
  · rw [hid]
    exact ⟨fun t ht => ht, fun u v hu hv => .pair hu hv .nil⟩
  · rw [hhtml]
    refine ⟨fun t ht => Html.isWhole_escape ht, fun u v hu hv => ?_⟩
    have hpair : (Html.escape [u, v]).IsWhole := Html.isWhole_escape (.pair hu hv .nil)
    rwa [Html.escape, ← List.singleton_append, List.flatMap_append] at hpair

/-! ## The text that the last pass goes over -/

namespace Backend

/-- The text that the last pass goes over: the fragments one after another, in LaTeX with every mark
in front of what it decorates. -/
def passText (r : Representation) (reg : Registry) (fragments : List Fragment) : Text :=
  match r with
  | .latex => Fragment.concat (Latex.reorder (reg.isMark .latex) fragments)
  | _ => Fragment.concat fragments

/-- What the last pass writes for a code point. -/
def passPoint : Representation → Nat → Text
  | .plain => Plain.translatePoint
  | .unicode => Text.ofCodePoint
  | .html => Html.translatePoint
  | .latex => Latex.translatePoint

/-- The last pass replaces the code points of one text one by one. -/
theorem translate_eq_mapPoints (b : Backend) (reg : Registry) (fragments : List Fragment) :
    b.translate reg (Fragment.concat fragments) fragments =
      (passText b.representation reg fragments).mapPoints (passPoint b.representation) := by
  rw [translate]
  cases b.representation with
  | plain | html | latex => rfl
  | unicode => exact (Text.ofCodePoints_codePoints _).symm

/-- The text that the last pass goes over is whole if the fragments are. -/
theorem isWhole_passText (r : Representation) (reg : Registry) {fragments : List Fragment}
    (h : ∀ fragment ∈ fragments, fragment.text.IsWhole) : (passText r reg fragments).IsWhole := by
  cases r with
  | plain | unicode | html => exact Fragment.isWhole_concat h
  | latex => exact Fragment.isWhole_concat (Latex.isWhole_reorder _ h)

/-- Over whole fragments the last pass meets the characters of a string, and writes one text for
each. -/
theorem exists_string_of_pass (b : Backend) (reg : Registry) {fragments : List Fragment}
    (h : ∀ fragment ∈ fragments, fragment.text.IsWhole) :
    ∃ s : String, passText b.representation reg fragments = Text.ofString s ∧
      (passText b.representation reg fragments).codePoints = s.toList.map Char.toNat ∧
      b.translate reg (Fragment.concat fragments) fragments =
        s.toList.flatMap fun c => passPoint b.representation c.toNat := by
  have hwhole := isWhole_passText b.representation reg h
  refine ⟨(passText b.representation reg fragments).toString, hwhole.ofString_toString.symm,
    hwhole.map_toNat_toString.symm, ?_⟩
  rw [translate_eq_mapPoints, Text.mapPoints, ← hwhole.map_toNat_toString, List.flatMap_map]

end Backend

/-! ## Engines -/

namespace Engine

/-- An engine with glossaries of the library renders whole arguments to whole text, whatever its
registry held before. -/
theorem keepsWhole_target (strict : Bool) (reg : Registry) {gs : List Glossary}
    (hgs : gs ⊆ Symbols.glossaries) (r : Representation) {manner : Manner}
    (hescape : manner.escape = id ∨ manner.escape = Html.escape) :
    (((create strict reg).withGlossaries gs).target r).KeepsWhole manner := by
  -- what the registry held before may not be whole, but it is not read
  rw [target_eq_fresh]
  have hfresh : ((create strict .empty).withGlossaries gs).KeepsWhole :=
    (keepsWhole_create strict Registry.isWhole_empty).withGlossaries fun g hg =>
      Symbols.isWhole_glossaries g (hgs hg)
  obtain ⟨hwhole, hpair⟩ := manner.isWhole_escape hescape
  exact (hfresh.backend r).target hwhole hpair

/-- No character of a source without halves of pairs is split, whether text is left as it is or
escaped for HTML. Every target that renders whole arguments to whole text is asked for whole
arguments only, and its last pass gets whole fragments. An engine with glossaries of the library is
such a target in every representation, whatever its registry held before: its last pass meets the
characters of a string, and writes one text for each of them. -/
theorem prints_characters {options : Options}
    (hescape : options.escape = id ∨ options.escape = Html.escape) {source : Text}
    (hsource : source.wellFormed = true) :
    (∀ target : Target,
      (∀ callee keys texts rendered, (∀ key ∈ keys, key.IsWhole) → (∀ t ∈ texts, t.IsWhole) →
        target.invoke callee keys texts = .ok rendered → rendered.IsWhole) →
      target.WorksOnWhole (options.manner target) source) ∧
    ∀ (strict : Bool) (reg : Registry) (gs : List Glossary), gs ⊆ Symbols.glossaries → ∀ r,
      let e := (create strict reg).withGlossaries gs
      let target := e.target r
      target.WorksOnWhole (options.manner target) source ∧
        ∀ fragments, target.Outputs (options.manner target) source fragments →
          ∃ s : String, Backend.passText r e.registry fragments = Text.ofString s ∧
            (Backend.passText r e.registry fragments).codePoints = s.toList.map Char.toNat ∧
            target.output fragments = s.toList.flatMap (fun c => Backend.passPoint r c.toNat) ∧
            (target.output fragments).IsWhole := by
  have hwhole := Text.wellFormed_iff.mp hsource
  refine ⟨?_, ?_⟩
  · intro target hinvoke
    obtain ⟨hescaped, hpair⟩ := (options.manner target).isWhole_escape hescape
    have hkeeps : target.KeepsWhole (options.manner target) :=
      ⟨hescaped _, hpair _ _, hinvoke _ _ _ _⟩
    exact hkeeps.worksOnWhole hwhole
  · intro strict reg gs hgs r e target
    have hworks : target.WorksOnWhole (options.manner target) source :=
      (keepsWhole_target strict reg hgs r hescape).worksOnWhole hwhole
    refine ⟨hworks, fun fragments houtputs => ?_⟩
    have hfragments := hworks.fragments fragments houtputs
    have houtput : target.output fragments = Backend.translate { representation := r } e.registry
      (Fragment.concat fragments) fragments := output_withGlossaries strict reg gs r fragments
    obtain ⟨s, htext, hpoints, hwritten⟩ :=
      Backend.exists_string_of_pass { representation := r } e.registry hfragments
    refine ⟨s, htext, hpoints, houtput.trans hwritten, ?_⟩
    rw [houtput]
    exact Backend.isWhole_translate _ _ (Fragment.isWhole_concat hfragments) fragments

/-- A backslash in front of a pair, which is then escaped half by half. -/
theorem prints_characters_sample :
    let options : Options := { escape := Html.escape }
    let source : Text := "😀$sup(\\😀<)"
    let e := (create false .empty).withGlossaries [Symbols.physics]
    let target := e.target .html
    let fragments : List Fragment := [⟨.literal, "😀"⟩, ⟨.call, "<sup>😀&lt;</sup>"⟩]
    Target.sample.WorksOnWhole (options.manner Target.sample) source ∧
      target.WorksOnWhole (options.manner target) source ∧
      (target.textInvocations (options.manner target) source).map
        (fun call => (call.group, call.keys, call.texts)) =
          [(Text.ofString "sup", [Text.ofString "😀<"], [Text.ofString "😀&lt;"])] ∧
      target.Outputs (options.manner target) source fragments ∧
      target.output fragments = "&#x1f600;<sup>&#x1f600;&lt;</sup>" ∧
      ∃ s : String, Backend.passText .html e.registry fragments = Text.ofString s ∧
        target.output fragments = s.toList.flatMap fun c => Backend.passPoint .html c.toNat := by
  intro options source e target fragments
  have hgs : [Symbols.physics] ⊆ Symbols.glossaries := List.cons_subset_cons _ (List.nil_subset _)
  have hsource : source.wellFormed = true := by decide +kernel
  have hescape : options.escape = id ∨ options.escape = Html.escape := .inr rfl
  obtain ⟨htargets, hengines⟩ := prints_characters hescape hsource
  obtain ⟨hworks, hpasses⟩ := hengines false .empty [Symbols.physics] hgs .html
  have houtputs : target.Outputs (options.manner target) source fragments :=
    .text (by decide +kernel)
  obtain ⟨s, htext, -, hwritten, -⟩ := hpasses fragments houtputs
  refine ⟨htargets Target.sample ?_, hworks, by decide +kernel, houtputs, by decide +kernel,
    s, htext, hwritten⟩
  intro callee keys texts rendered _ htexts hrendered
  simp only [Target.sample] at hrendered
  split at hrendered
  · cases hrendered
  · cases hrendered
    exact .flatten htexts

end Engine

end Sigil
