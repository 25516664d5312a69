import Sigil.Proofs.Backend.Concatenation
import Sigil.Proofs.Engine.Independence
import Sigil.Proofs.Engine.WellFormed

/-!
# Writing expressions out one behind the other

An engine with glossaries writes two expressions that stand one behind the other as it writes each
of them (`Engine.parse_append`). It accepts the whole whenever it accepts both parts, unless a
backslash at the end of the first one meets a dollar sign. In LaTeX the second part must not begin
with a mark, since that would reach back over the first one.
-/

namespace Sigil

open CodeUnit

namespace Engine

/-- The source is written in LaTeX, and begins with a call that renders to a mark. -/
def BeginsWithMark (e : Engine) (r : Representation) (options : Options) (source : Text) : Prop :=
  r = .latex ∧ ∃ fragments, (e.target r).evaluate (options.manner (e.target r)) source =
    .ok fragments ∧ Latex.BeginsWithMark (e.registry.isMark .latex) fragments

variable {e : Engine} {r : Representation} {a b out out' : Text} {strict : Option Bool}

/-- An engine that keeps text whole writes expressions out one behind the other. -/
theorem KeepsWhole.exists_parse_append (he : e.KeepsWhole) (hr : (e.backend r).representation = r)
    (hb : b.IsWhole) (hout : e.parse r a { strict } = .ok out)
    (hout' : e.parse r b { strict } = .ok out')
    (hseam : ¬(a.getLast? = some backslash ∧ b.head? = some dollar)) :
    ∃ both, e.parse r (a ++ b) { strict } = .ok both ∧
      (¬e.BeginsWithMark r { strict } b → both = out ++ out') := by
  obtain ⟨fragments, heval, hresult⟩ := bind_eq_ok_iff.mp hout
  cases hresult
  obtain ⟨fragments', heval', hresult⟩ := bind_eq_ok_iff.mp hout'
  cases hresult
  obtain ⟨all, hall, hjoined⟩ := Target.evaluate_append heval heval'
    fun hlast hhead => hseam ⟨hlast, hhead⟩
  refine ⟨(e.target r).output all, bind_eq_ok_iff.mpr ⟨all, hall, rfl⟩, ?_⟩
  intro hmark
  have hwhole := ((he.backend r).target_id _).evaluate hb heval'
  refine (e.backend r).output_joined e.registry e.peers hjoined hwhole ?_
  rw [hr]
  exact fun hlatex hbegins => hmark ⟨hlatex, fragments', heval', hbegins⟩

/-- An engine with glossaries of the library, whatever its registry held before, accepts a source
that consists of two sources which it accepts, unless a backslash at the end of the first one meets
a dollar sign. It writes the two out one behind the other, unless the second one begins with a mark
in LaTeX. Of the halves of pairs, only those of the second source must not stand alone. -/
theorem parse_append {strict : Bool} {reg : Registry} {gs : List Glossary}
    (hgs : gs ⊆ Symbols.glossaries) {r : Representation} {wish : Option Bool} {a b out out' : Text}
    (hb : b.wellFormed = true)
    (hout : ((create strict reg).withGlossaries gs).parse r a { strict := wish } = .ok out)
    (hout' : ((create strict reg).withGlossaries gs).parse r b { strict := wish } = .ok out')
    (hseam : ¬(a.getLast? = some backslash ∧ b.head? = some dollar)) :
    ∃ both, ((create strict reg).withGlossaries gs).parse r (a ++ b) { strict := wish } =
        .ok both ∧
      (¬((create strict reg).withGlossaries gs).BeginsWithMark r { strict := wish } b →
        both = out ++ out') := by
  have huniform := uniform_create strict reg
  -- what the registry held before may not be whole, but it is not read
  have htwins : ((create strict reg).withGlossaries gs).Twins
      ((create strict .empty).withGlossaries gs) :=
    (twins_create strict reg .empty).withGlossaries huniform gs
  have htarget := htwins.target_eq (huniform.withGlossaries gs) r
  have hfresh : ((create strict .empty).withGlossaries gs).KeepsWhole :=
    (keepsWhole_create strict Registry.isWhole_empty).withGlossaries fun g hg =>
      Symbols.isWhole_glossaries g (hgs hg)
  have hrepresentation := (((uniform_create strict .empty).withGlossaries gs) r).1
  simp only [parse, BeginsWithMark, htarget, htwins.isMark] at hout hout' ⊢
  exact hfresh.exists_parse_append hrepresentation (Text.wellFormed_iff.mp hb) hout hout' hseam

/-- The literals at the seam become one. The mark behind it decorates the last character, as it does
where the second source is written out by itself. -/
theorem parse_append_sample :
    let e := (create false .empty).withGlossaries [Symbols.physics]
    let a : Text := "$phy(G) a"
    let b : Text := "é$math(hat)$sup(2)"
    [Symbols.physics] ⊆ Symbols.glossaries ∧ b.wellFormed = true ∧
      e.parse .latex a { strict := some true } = .ok "G\\ a" ∧
      e.parse .latex b { strict := some true } = .ok "\\^\x7b\\unicode\x7be9\x7d\x7d^\x7b2\x7d" ∧
      ¬(a.getLast? = some backslash ∧ b.head? = some dollar) ∧
      ¬e.BeginsWithMark .latex { strict := some true } b ∧
      e.parse .latex (a ++ b) { strict := some true } =
        .ok "G\\ a\\^\x7b\\unicode\x7be9\x7d\x7d^\x7b2\x7d" := by
  intro e a b
  have hgs : [Symbols.physics] ⊆ Symbols.glossaries := List.cons_subset_cons _ (List.nil_subset _)
  have hresults :
      (e.parse .latex a { strict := some true }).toOption = some "G\\ a" ∧
      (e.parse .latex b { strict := some true }).toOption =
        some "\\^\x7b\\unicode\x7be9\x7d\x7d^\x7b2\x7d" ∧
      ((e.target .latex).evaluate ⟨true, id⟩ b).toOption =
        some [⟨.literal, "é"⟩, ⟨.call, "\\^"⟩, ⟨.call, "^\x7b2\x7d"⟩] := by
    decide +kernel
  obtain ⟨hresult, hresult', hfragments⟩ := hresults
  have ha := eq_ok_of_toOption hresult
  have hb := eq_ok_of_toOption hresult'
  have hseam : ¬(a.getLast? = some backslash ∧ b.head? = some dollar) := by decide
  have hmark : ¬e.BeginsWithMark .latex { strict := some true } b := by
    intro hbegins
    obtain ⟨-, fragments, hevaluate, mark, rest, rfl, -⟩ := hbegins
    cases (eq_ok_of_toOption hfragments).symm.trans hevaluate
  obtain ⟨both, hboth, heq⟩ := parse_append hgs rfl ha hb hseam
  refine ⟨hgs, rfl, ha, hb, hseam, hmark, ?_⟩
  rw [hboth, heq hmark]
  rfl

end Engine

end Sigil
