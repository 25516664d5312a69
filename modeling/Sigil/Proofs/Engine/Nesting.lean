import Sigil.Proofs.Engine.Creation
import Sigil.Proofs.Expression.Nesting
import Sigil.Proofs.Text.CodePoints

/-!
# Expressions in a subscript

The groups for subscripts and superscripts put their argument between two texts, except in Unicode.
So a call of one of them with an expression for its argument encloses the output that the expression
has before the last pass (`Engine.parse_callWith`). In plain text and HTML the last pass goes over
that output as it does over the expression by itself, so what is enclosed is the output of the
expression (`Engine.subscript_of_source`).
-/

namespace Sigil

/-- Leaving text as it is and writing it for HTML are both done unit by unit. -/
theorem Manner.escapesUnits {manner : Manner}
    (h : manner.escape = id ∨ manner.escape = Html.escape) : manner.EscapesUnits := by
  intro t
  rcases h with h | h
  · rw [h]
    exact (List.flatMap_singleton' t).symm
  · have hunit : ∀ u, Html.escape [u] = Html.escapeUnit u := fun u => List.flatMap_singleton ..
    simp only [h, hunit]
    rfl

namespace Engine

/-- What an engine with glossaries makes of fragments. -/
theorem output_withGlossaries (strict : Bool) (reg : Registry) (gs : List Glossary)
    (r : Representation) (fragments : List Fragment) :
    let e := (create strict reg).withGlossaries gs
    (e.target r).output fragments = Backend.translate { representation := r } e.registry
      (Fragment.concat fragments) fragments := by
  intro e
  have hrepresentation := (((uniform_create strict reg).withGlossaries gs) r).1
  rw [target, Backend.output_target, Backend.translate, hrepresentation, Backend.translate]

/-- A built-in group that encloses its argument is there, and does so. -/
theorem invoke_enclose (strict : Bool) (reg : Registry) (gs : List Glossary) {r : Representation}
    {name description front back : Text}
    (hd : { name, description, render := .enclose front back } ∈ Backend.definitions r) :
    let target := ((create strict reg).withGlossaries gs).target r
    target.known name = true ∧
      ∀ key text, target.invoke name [key] [text] = .ok (front ++ text ++ back) := by
  intro target
  have hgroup := get?_groups_withGlossaries strict reg gs hd
  exact ⟨Backend.hasGroup_iff.mpr ⟨_, hgroup⟩,
    fun key text => invoke_builtIn strict reg gs hd _ _ rfl [text]⟩

variable {strict : Bool} {reg : Registry} {gs : List Glossary} {r : Representation}
  {options : Options} {source : Text} {fragments : List Fragment}

/-- A call of a built-in group that encloses its argument in ASCII text encloses the output of the
expression that is its argument, as the last pass writes a single call. -/
theorem parse_callWith {name description front back : Text} {f : Nat → Text}
    (hd : { name, description, render := .enclose front back } ∈ Backend.definitions r)
    (hname : name.isName = true)
    (hlast : ∀ t, (((create strict reg).withGlossaries gs).target r).output [⟨.call, t⟩] =
      t.mapPoints f)
    (hfixed : (front ++ back).IsFixed f)
    (hescape : options.escape = id ∨ options.escape = Html.escape)
    (hplain : source.literalText.IsPlain)
    (heval : (((create strict reg).withGlossaries gs).target r).evaluate
      (options.manner (((create strict reg).withGlossaries gs).target r)) source = .ok fragments)
    (hout : Fragment.concat fragments ≠ []) :
    ((create strict reg).withGlossaries gs).parse r (Text.callWith name source) options =
      .ok (front ++ (Fragment.concat fragments).mapPoints f ++ back) := by
  obtain ⟨hknown, hinvoke⟩ := invoke_enclose strict reg gs hd
  have hcall := Target.evaluate_callWith (Manner.escapesUnits hescape) hplain heval hout hname
    hknown fun key => hinvoke key _
  rw [← hfixed.mapPoints_enclose, ← hlast]
  exact bind_eq_ok_iff.mpr ⟨_, hcall, rfl⟩

/-- Where the last pass replaces code points one by one, the call encloses what is written of the
expression by itself. -/
theorem parse_callWith_mapPoints {name description front back out : Text} {f : Nat → Text}
    (hd : { name, description, render := .enclose front back } ∈ Backend.definitions r)
    (hname : name.isName = true)
    (hlast : ∀ fragments, (((create strict reg).withGlossaries gs).target r).output fragments =
      (Fragment.concat fragments).mapPoints f)
    (hfixed : (front ++ back).IsFixed f)
    (hescape : options.escape = id ∨ options.escape = Html.escape)
    (hplain : source.literalText.IsPlain)
    (h : ((create strict reg).withGlossaries gs).parse r source options = .ok out)
    (hout : out ≠ []) :
    ((create strict reg).withGlossaries gs).parse r (Text.callWith name source) options =
      .ok (front ++ out ++ back) := by
  obtain ⟨fragments, heval, hresult⟩ := bind_eq_ok_iff.mp h
  cases hresult
  rw [hlast] at hout ⊢
  have hconcat : Fragment.concat fragments ≠ [] := by
    intro hnil
    rw [hnil] at hout
    exact hout rfl
  have hcall : ∀ t, (((create strict reg).withGlossaries gs).target r).output [⟨.call, t⟩] =
      t.mapPoints f := by
    intro t
    rw [hlast, Fragment.concat_singleton]
  exact parse_callWith hd hname hcall hfixed hescape hplain heval hconcat

/-- An engine with glossaries, whatever its registry held before, writes an expression in a
subscript or a superscript as it writes the expression by itself, in plain text and in HTML. The
expression must have output, since an empty argument is dropped, and its literal text no unit that
means something in an argument. -/
theorem subscript_of_source (strict : Bool) (reg : Registry) (gs : List Glossary)
    {options : Options} (hescape : options.escape = id ∨ options.escape = Html.escape)
    {source : Text} (hplain : source.literalText.IsPlain) :
    let e := (create strict reg).withGlossaries gs
    (∀ out, e.parse .plain source options = .ok out → out ≠ [] →
      e.parse .plain ("$sub(" ++ source ++ ")") options = .ok ("_" ++ out) ∧
        e.parse .plain ("$sup(" ++ source ++ ")") options = .ok ("^" ++ out)) ∧
    ∀ out, e.parse .html source options = .ok out → out ≠ [] →
      e.parse .html ("$sub(" ++ source ++ ")") options = .ok ("<sub>" ++ out ++ "</sub>") ∧
        e.parse .html ("$sup(" ++ source ++ ")") options = .ok ("<sup>" ++ out ++ "</sup>") := by
  intro e
  have hplainOutput : ∀ fragments, (e.target .plain).output fragments =
      Plain.translate (Fragment.concat fragments) := output_withGlossaries strict reg gs .plain
  have hhtmlOutput : ∀ fragments, (e.target .html).output fragments =
      Html.translate (Fragment.concat fragments) := output_withGlossaries strict reg gs .html
  refine ⟨fun out h hout => ?_, fun out h hout => ?_⟩
  · have hcall : ∀ {name description front : Text},
        { name, description, render := .enclose front "" } ∈ Plain.definitions →
          name.isName = true →
          (front ++ []).IsFixed Plain.translatePoint →
          e.parse .plain (Text.callWith name source) options = .ok (front ++ out) := by
      intro name description front hd hname hfixed
      have hresult := parse_callWith_mapPoints hd hname hplainOutput hfixed hescape hplain h hout
      rwa [List.append_nil] at hresult
    exact ⟨hcall (List.mem_of_getElem? (i := 5) rfl) rfl (by decide),
      hcall (List.mem_of_getElem? (i := 6) rfl) rfl (by decide)⟩
  · have hcall : ∀ {name description front back : Text},
        { name, description, render := .enclose front back } ∈ Html.definitions →
          name.isName = true →
          (front ++ back).IsFixed Html.translatePoint →
          e.parse .html (Text.callWith name source) options = .ok (front ++ out ++ back) :=
      fun hd hname hfixed =>
        parse_callWith_mapPoints hd hname hhtmlOutput hfixed hescape hplain h hout
    exact ⟨hcall (List.mem_of_getElem? (i := 5) rfl) rfl (by decide),
      hcall (List.mem_of_getElem? (i := 6) rfl) rfl (by decide)⟩

/-- The letter beyond the basic plane is read in halves in the argument, and the calls may have
arguments of their own. -/
theorem subscript_of_source_sample :
    let e := (create false .empty).withGlossaries [Symbols.physics]
    let options : Options := ⟨some true, Html.escape⟩
    let source : Text := "𝑥<$sup($phy(G),)(y"
    (options.escape = id ∨ options.escape = Html.escape) ∧ source.literalText.IsPlain ∧
      e.parse .plain source options = .ok "?&lt;^G(y" ∧
      e.parse .plain ("$sub(" ++ source ++ ")") options = .ok "_?&lt;^G(y" ∧
      e.parse .html source options = .ok "&#x1d465;&lt;<sup>G</sup>(y" ∧
      e.parse .html ("$sup(" ++ source ++ ")") options =
        .ok "<sup>&#x1d465;&lt;<sup>G</sup>(y</sup>" := by
  intro e options source
  have hescape : options.escape = id ∨ options.escape = Html.escape := .inr rfl
  have hliteral : source.literalText.IsPlain := by decide
  have hresults : (e.parse .plain source options).toOption = some "?&lt;^G(y" ∧
      (e.parse .html source options).toOption = some "&#x1d465;&lt;<sup>G</sup>(y" := by
    decide +kernel
  have hplain := eq_ok_of_toOption hresults.1
  have hhtml := eq_ok_of_toOption hresults.2
  obtain ⟨hplainCall, hhtmlCall⟩ :=
    subscript_of_source false .empty [Symbols.physics] hescape hliteral
  refine ⟨hescape, hliteral, hplain, ?_, hhtml, ?_⟩
  · exact (hplainCall _ hplain (by decide)).1
  · exact (hhtmlCall _ hhtml (by decide)).2

end Engine

end Sigil
