import Sigil.Proofs.Engine.Fractions
import Sigil.Renderings

/-!
# Representations that accord

Whether a source is written out does not depend on the representation, unless there is an argument
that is made of blanks, and of calls that are left with nothing of an argument of blanks
(`Engine.representations_accord`). Such an argument may be empty, and an empty argument is dropped, so
that the call around it is an argument short. Not all representations cut the same blanks off
(`Engine.representations_disagree`).
-/

namespace Sigil

/-- There are renderings of what all representations write out. -/
theorem Renderings.exists_render {e : Engine} {source : Text}
    (h : ∀ r, ∃ out, e.parse r source = .ok out) : ∃ codes, render e source = .ok codes := by
  obtain ⟨plain, hplain⟩ := h .plain
  obtain ⟨unicode, hunicode⟩ := h .unicode
  obtain ⟨html, hhtml⟩ := h .html
  obtain ⟨latex, hlatex⟩ := h .latex
  refine ⟨⟨plain, unicode, html, latex⟩, ?_⟩
  simp only [render, hplain, hunicode, hhtml, hlatex]
  rfl

namespace Engine

/-- Stocked representations come through a source together, or give it up together, if no argument is
in doubt in one of them. -/
theorem IsWellStocked.concur_parse {e : Engine} {names : List Text} (h : e.IsWellStocked names)
    (hmanner : ∀ r, ({} : Options).manner (e.target r) = {}) {r₀ : Representation} {source : Text}
    (hclear : (e.target r₀).isClearIn r₀.spares false source = true) (r : Representation) :
    Concur (fun _ _ => True) (e.parse r₀ source) (e.parse r source) := by
  have hother : ∀ r, (r₀ = .unicode → r ≠ .unicode) →
      Concur (fun _ _ => True) (e.parse r₀ source) (e.parse r source) := by
    intro r hr
    have haccords := (h.stocked r₀).accords (h.stocked r) h.tables hr
    exact haccords.parse hclear (hmanner r₀) (hmanner r)
  by_cases hr : r₀ = .unicode → r ≠ .unicode
  · exact hother r hr
  · -- what concurs with plain text concurs with itself
    rw [Classical.not_imp, not_not] at hr
    obtain ⟨rfl, rfl⟩ := hr
    have hplain := hother .plain fun _ => nofun
    exact hplain.join hplain fun _ _ _ _ _ => trivial

/-- The representations are one in what they write out, as far as blanks allow. What is no
expression none of them writes out, and what is one they give up for the arguments of a call alone.
A source is written out in all of them, or given up in all of them at the same offset and for causes
of the same kind, unless an argument with a call of a hollow group in it, that has a first argument
of blanks, has nothing visible beside it. It does not matter in which representation one looks at the
arguments, and in Unicode a fraction counts among those calls only if it is over one. So renderings of
such a source cannot be had only where no representation writes it out. -/
theorem representations_accord {reg : Registry} {gs : List Glossary}
    (hgs : gs ⊆ Symbols.glossaries) {e : Engine} (he : e = (create false reg).withGlossaries gs)
    (source : Text) :
    (∀ r, (∀ out, e.parse r source = .ok out → Grammar.IsExpression source) ∧
      ∀ fault, Grammar.IsExpression source → e.parse r source = .error fault →
        ∃ pf : ParseFault, fault = .parse pf ∧ pf.cause.kind = .invalidArgument) ∧
    ∀ r₀, (e.target r₀).isClearIn r₀.spares false source = true →
      ((∀ r, ∃ out, e.parse r source = .ok out) ∨
        ∃ kind offset, ∀ r, ∃ pf : ParseFault, e.parse r source = .error (.parse pf) ∧
          pf.cause.kind = kind ∧ pf.offset = offset) ∧
      ∀ (s : Renderings) fault, s.evaluate e source = .error fault →
        ∀ r out, e.parse r source ≠ .ok out := by
  have hmanner : ∀ r, ({} : Options).manner (e.target r) = {} := by
    intro r
    have hstrict : (e.backend r).strict = false := by
      rw [he]
      exact ((uniform_create false reg).withGlossaries gs r).2
    show (⟨(e.target r).strict, id⟩ : Manner) = ⟨false, id⟩
    exact congrArg (Manner.mk · id) hstrict
  refine ⟨fun r => ⟨fun out => Target.isExpression_of_parse, ?_⟩, ?_⟩
  · intro fault hsource hfault
    have hclosed : (e.target r).Closed := by
      rw [he]
      exact (closed_withGlossaries false reg gs r).closed _ _
    exact hclosed.parse_fault_of_isExpression hsource (by rw [hmanner r]) hfault
  intro r₀ hclear
  obtain ⟨names, hstocked⟩ := exists_isWellStocked false reg hgs
  rw [← he] at hstocked
  have houtcome := Concur.all (fun r => e.parse r source) (hstocked.concur_parse hmanner hclear)
  refine ⟨houtcome, ?_⟩
  intro s fault hevaluate r out hout
  rcases houtcome with hall | ⟨kind, offset, hnone⟩
  · obtain ⟨codes, hcodes⟩ := Renderings.exists_render hall
    rw [Renderings.evaluate, hcodes] at hevaluate
    cases hevaluate
  · obtain ⟨pf, hpf, -⟩ := hnone r
    rw [hout] at hpf
    cases hpf

/-- Blank arguments do no harm between calls, nor beside what is visible, nor to groups that look the
blanks up, nor above the line of a fraction that is not over one. -/
theorem representations_accord_sample :
    let e := (create false .empty).withGlossaries [Symbols.physics]
    let source : Text :=
      "$sub($phy(G)$greek( ))$arabic( )$sup($frac( ,2))$sub(x$arabic( ))"
    [Symbols.physics] ⊆ Symbols.glossaries ∧
      (e.target .unicode).isClearIn Representation.unicode.spares false source = true ∧
      e.parse .plain source = .ok "_G ^/2_x" ∧
      Grammar.IsExpression source ∧
      ∀ r, ∃ out, e.parse r source = .ok out := by
  intro e source
  have hgs : [Symbols.physics] ⊆ Symbols.glossaries :=
    List.cons_subset_cons _ (List.nil_subset _)
  have hclear : (e.target .unicode).isClearIn Representation.unicode.spares false source = true := by
    decide +kernel
  have hplain : e.parse .plain source = .ok "_G ^/2_x" := by
    decide +kernel
  obtain ⟨hexpression, haccord⟩ := representations_accord hgs (e := e) rfl source
  refine ⟨hgs, hclear, hplain, (hexpression .plain).1 _ hplain, ?_⟩
  refine (haccord .unicode hclear).1.resolve_right ?_
  rintro ⟨kind, offset, hnone⟩
  obtain ⟨pf, hpf, -⟩ := hnone .plain
  rw [hplain] at hpf
  cases hpf

/-- A blank that LaTeX copies leaves nothing behind in the other representations, so that a call
around it is short of an argument there. -/
theorem representations_disagree :
    let e := create false .empty
    (∀ r, r ≠ .latex → ∃ reason, e.parse r "$sub($arabic( ))" =
      .error (.parse ⟨.invalidArgument reason, "$sub($arabic( ))", 16⟩)) ∧
      e.parse .latex "$sub($arabic( ))" = .ok "_\x7b\\ \x7d" := by
  intro e
  have hlatex : e.parse .latex "$sub($arabic( ))" = .ok "_\x7b\\ \x7d" := by decide +kernel
  refine ⟨?_, hlatex⟩
  intro r hr
  refine ⟨r.name ++ " renderer 'sub' takes 1 argument, got 0", ?_⟩
  cases r with
  | latex => exact absurd rfl hr
  | _ => decide +kernel

end Engine

end Sigil
