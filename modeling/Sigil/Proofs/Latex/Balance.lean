import Mathlib.Data.List.Infix
import Sigil.Proofs.Engine.Independence
import Sigil.Proofs.Expression.Preservation
import Sigil.Proofs.Latex.Nesting

/-!
# LaTeX output is balanced

Braces are written by renderers, by the last pass and by marks over their bases, and each of them
leaves as many open as the text inside. A mark may go around half of a balanced text, but then it
goes around the last character alone and leaves open what that leaves open
(`Latex.openBehind_nest`). So groups of balanced fragments are balanced (`Latex.isBalanced_text`),
and a backend whose renderers keep text balanced writes balanced output
(`Backend.KeepsBalanced.parse`). That holds of an engine with the glossaries of the library, for
every source without braces (`Engine.latex_isBalanced`).
-/

namespace Sigil

namespace Latex

open CodeUnit (leftBrace rightBrace)

/-! ## Counting braces -/

/-- What holds of all beginnings of a text holds of the empty one and, behind the first unit, of all
beginnings of the rest. -/
theorem forall_prefix_cons {P : Text → Prop} {u : CodeUnit} {t : Text} :
    (∀ s, s <+: u :: t → P s) ↔ P [] ∧ ∀ s, s <+: t → P (u :: s) := by
  simp only [List.prefix_cons_iff]
  constructor
  · intro h
    exact ⟨h [] (.inl rfl), fun s hs => h (u :: s) (.inr ⟨s, rfl, hs⟩)⟩
  · intro h s hs
    rcases hs with rfl | ⟨s, rfl, hs⟩
    · exact h.1
    · exact h.2 s hs

/-- The braces that are open behind a text are those in front of it and those that open in it,
without those that close, if no more close in any beginning of the text. -/
theorem openBehind_eq_some_iff {n k : Nat} {t : Text} :
    openBehind n t = some k ↔
      (∀ s, s <+: t → s.count rightBrace ≤ n + s.count leftBrace) ∧
        n + t.count leftBrace = k + t.count rightBrace := by
  have hne : leftBrace ≠ rightBrace := by decide
  fun_induction openBehind n t with
  | case1 n => simp
  | case2 n t ih =>
      simp only [ih, forall_prefix_cons, List.count_cons_self, List.count_cons_of_ne hne]
      refine and_congr ?_ (by omega)
      rw [List.count_nil, and_iff_right (Nat.zero_le _)]
      exact forall₂_congr fun s _ => by omega
  | case3 t =>
      -- the brace that closes is the beginning that has too many of them
      simp only [forall_prefix_cons, List.count_cons_self, List.count_cons_of_ne hne.symm]
      refine iff_of_false (Option.some_ne_none k).symm fun h => ?_
      have hfirst := h.1.2 [] List.nil_prefix
      simp at hfirst
  | case4 t n _ ih =>
      simp only [ih, forall_prefix_cons, List.count_cons_self, List.count_cons_of_ne hne.symm]
      refine and_congr ?_ (by omega)
      rw [List.count_nil, and_iff_right (Nat.zero_le _)]
      exact forall₂_congr fun s _ => by omega
  | case5 n u t hleft hright ih =>
      simp only [ih, forall_prefix_cons, List.count_cons_of_ne hleft, List.count_cons_of_ne hright,
        List.count_nil, Nat.zero_le, true_and]

/-- A text is balanced if no beginning of it has more braces that close than such that open, and the
whole of it has as many of both. -/
theorem isBalanced_iff_count {t : Text} :
    IsBalanced t ↔ (∀ s, s <+: t → s.count rightBrace ≤ s.count leftBrace) ∧
      t.count leftBrace = t.count rightBrace := by
  rw [IsBalanced, openBehind_eq_some_iff]
  simp only [Nat.zero_add]

/-! ## Texts without braces -/

/-- The text has no braces. -/
def IsBraceless (t : Text) : Prop := leftBrace ∉ t ∧ rightBrace ∉ t

instance (t : Text) : Decidable (IsBraceless t) := inferInstanceAs (Decidable (_ ∧ _))

theorem isBraceless_iff {t : Text} :
    IsBraceless t ↔ ∀ u ∈ t, u ≠ leftBrace ∧ u ≠ rightBrace := by
  constructor
  · intro h u hu
    exact ⟨ne_of_mem_of_not_mem hu h.1, ne_of_mem_of_not_mem hu h.2⟩
  · intro h
    exact ⟨fun hmem => (h _ hmem).1 rfl, fun hmem => (h _ hmem).2 rfl⟩

theorem IsBraceless.isBalanced {t : Text} (h : IsBraceless t) : IsBalanced t :=
  isBalanced_of_ne (isBraceless_iff.mp h)

/-- Blanks are no braces. -/
theorem isBraceless_of_blank {t : Text} (h : ∀ u ∈ t, u.isBlank = true) : IsBraceless t :=
  ⟨fun hmem => Bool.false_ne_true (h _ hmem), fun hmem => Bool.false_ne_true (h _ hmem)⟩

/-- What is left of a balanced text when it is trimmed is balanced. -/
theorem IsBalanced.trim {t : Text} (h : IsBalanced t) : IsBalanced t.trim := by
  have hfront := (isBraceless_of_blank (t := t.takeWhile CodeUnit.isBlank) fun u hu =>
    List.all_eq_true.mp List.all_takeWhile u hu).isBalanced
  obtain ⟨blanks, hblanks, hback⟩ := t.trimStart.exists_trimEnd_append
  have hstart : IsBalanced t.trimStart := by
    have hall : openBehind 0 (t.takeWhile CodeUnit.isBlank ++ t.trimStart) = some 0 := by
      rw [Text.trimStart, List.takeWhile_append_dropWhile]
      exact h
    rwa [openBehind_append, hfront, Option.bind_some] at hall
  rw [IsBalanced, hback, openBehind_append] at hstart
  obtain ⟨n, hn, hrest⟩ := Option.bind_eq_some_iff.mp hstart
  rw [(isBraceless_of_blank hblanks).isBalanced.openBehind_eq, Option.some.injEq] at hrest
  rw [Text.trim, IsBalanced, hn, hrest]

/-! ## Marks around their bases -/

/-- A text with balanced marks around it leaves the braces open that the text leaves open. -/
theorem openBehind_nest {n k : Nat} {t : Text} (h : openBehind n t = some k) {marks : List Text}
    (hmarks : ∀ mark ∈ marks, IsBalanced mark) : openBehind n (nest t marks) = some k := by
  induction marks generalizing t with
  | nil => exact h
  | cons mark marks ih =>
      rw [List.forall_mem_cons] at hmarks
      refine ih ?_ hmarks.2
      rw [openBehind_append, hmarks.1.openBehind_eq, Option.bind_some]
      exact openBehind_brace h

/-- A balanced call with balanced marks around it is balanced. -/
theorem IsBalanced.nestCall {call : Text} (h : IsBalanced call) {marks : List Text}
    (hmarks : ∀ mark ∈ marks, IsBalanced mark) : IsBalanced (nestCall call marks) := by
  cases marks with
  | nil => exact h
  | cons mark marks =>
      rw [List.forall_mem_cons] at hmarks
      refine openBehind_nest (hmarks.1.append ?_) hmarks.2
      split
      · exact h
      · exact h.brace

/-- A group of balanced texts is balanced. The marks go around the last character of literal text,
which need not be balanced by itself. -/
theorem isBalanced_text {marked : Marked} (hbase : IsBalanced marked.base.text)
    (hmarks : ∀ mark ∈ marked.marks, IsBalanced mark) : IsBalanced marked.text := by
  obtain ⟨⟨kind, text⟩, marks⟩ := marked
  cases kind with
  | call => exact hbase.nestCall hmarks
  | literal =>
      cases marks with
      | nil => exact hbase
      | cons mark marks =>
          rw [Marked.text]
          rcases List.eq_nil_or_concat text.characters with hnone | ⟨init, last, hsome⟩
          · rw [hnone, List.getLast?_nil]
            rw [List.forall_mem_cons] at hmarks
            exact hmarks.1.nestCall hmarks.2
          · rw [List.concat_eq_append] at hsome
            have htext : text = init.flatten ++ last := by
              rw [← text.flatten_characters, hsome, List.flatten_append, List.flatten_singleton]
            have hall : openBehind 0 (init.flatten ++ last) = some 0 := by
              rw [← htext]
              exact hbase
            rw [openBehind_append] at hall
            obtain ⟨n, hn, hlast⟩ := Option.bind_eq_some_iff.mp hall
            rw [hsome, List.getLast?_concat, List.dropLast_concat, IsBalanced, openBehind_append,
              hn, Option.bind_some]
            exact openBehind_nest hlast hmarks

/-- The last pass over balanced fragments writes balanced text. -/
theorem isBalanced_translate {isMark : Text → Bool} (hmacros : MarksAreMacros isMark)
    {fragments : List Fragment} (h : ∀ fragment ∈ fragments, IsBalanced fragment.text) :
    IsBalanced (translate isMark fragments) := by
  rw [translate, isBalanced_mapPoints_iff, concat_reorder hmacros]
  have hgroups : ∀ marked ∈ group isMark fragments, IsBalanced marked.text := by
    intro marked hmarked
    have hfragments : ∀ fragment ∈ marked.fragments, IsBalanced fragment.text := by
      intro fragment hfragment
      exact h fragment (mem_of_mem_group hmarked hfragment)
    rw [Marked.fragments, List.forall_mem_cons, List.forall_mem_map] at hfragments
    exact isBalanced_text hfragments.1 hfragments.2
  generalize group isMark fragments = groups at hgroups
  induction groups with
  | nil => rfl
  | cons marked groups ih =>
      rw [List.forall_mem_cons] at hgroups
      exact hgroups.1.append (ih hgroups.2)

end Latex

open Latex (IsBalanced IsBraceless)

/-! ## Renderers -/

/-- All codes for LaTeX are balanced, and its marks are macros. -/
structure Registry.IsBalanced (reg : Registry) : Prop where
  codes : ∀ id table, reg.table? .latex id = some table →
    ∀ key code, table.mapping.get? key = some code → Latex.IsBalanced code
  macros : Latex.MarksAreMacros (reg.isMark .latex)

/-- A renderer of LaTeX writes balanced text for balanced arguments, if the codes are balanced. -/
def Render.KeepsBalanced (render : Render) : Prop :=
  ∀ scope call rendered, scope.representation = .latex → scope.registry.IsBalanced →
    (∀ t ∈ call.texts, IsBalanced t) → render scope call = .ok rendered → IsBalanced rendered

/-- An argument is balanced also where it was not given. -/
theorem Invocation.isBalanced_getD {texts : List Text} (h : ∀ t ∈ texts, IsBalanced t) (i : Nat) :
    IsBalanced (texts.getD i absent) := by
  rw [List.getD_eq_getElem?_getD]
  cases hget : texts[i]? with
  | none => exact (show IsBalanced absent by decide)
  | some t => exact h t (List.mem_of_getElem? hget)

namespace Render

theorem keepsBalanced_lookup : Render.KeepsBalanced .lookup := by
  intro scope call rendered hlatex hreg _ hrendered
  obtain ⟨key, -, hcode⟩ := bind_eq_ok_iff.mp hrendered
  rw [Scope.lookup, hlatex] at hcode
  obtain ⟨table, htable, hcode⟩ := Registry.lookup_eq_ok_iff.mp hcode
  exact hreg.codes _ table htable _ _ hcode

/-- Braces around an argument are balanced if they are without it. -/
theorem keepsBalanced_enclose {front back : Text} (h : IsBalanced (front ++ back)) :
    Render.KeepsBalanced (.enclose front back) := by
  intro scope call rendered _ _ htexts hrendered
  cases hrendered
  have htext : IsBalanced call.text := Invocation.isBalanced_getD htexts 0
  rw [IsBalanced, Latex.openBehind_append] at h
  obtain ⟨n, hfront, hback⟩ := Option.bind_eq_some_iff.mp h
  rw [IsBalanced, Latex.openBehind_append, Latex.openBehind_append, hfront, Option.bind_some,
    htext.openBehind_eq, Option.bind_some, hback]

end Render

namespace Latex

theorem keepsBalanced_renderScript : Render.KeepsBalanced renderScript := by
  intro scope call rendered _ _ htexts hrendered
  obtain ⟨letters, hletters, hresult⟩ := bind_eq_ok_iff.mp hrendered
  cases hresult
  obtain ⟨arg, harg, rfl⟩ := Invocation.exists_mem_of_trimmed hletters
  have hname : IsBalanced "\\mathcal" := by decide
  exact hname.append (htexts arg harg).trim.brace

theorem keepsBalanced_renderFraction : Render.KeepsBalanced renderFraction := by
  intro scope call rendered _ _ htexts hrendered
  cases hrendered
  have hname : IsBalanced "\\frac" := by decide
  exact (hname.append (Invocation.isBalanced_getD htexts 0).brace).append
    (Invocation.isBalanced_getD htexts 1).brace

/-- Every built-in group of LaTeX writes balanced text. -/
theorem keepsBalanced_definitions : ∀ d ∈ definitions, d.render.KeepsBalanced := by
  have hlookup := Render.keepsBalanced_lookup
  simp only [definitions, List.forall_mem_cons]
  exact ⟨Render.keepsBalanced_enclose (by decide), keepsBalanced_renderFraction, hlookup, hlookup,
    keepsBalanced_renderScript, Render.keepsBalanced_enclose (by decide),
    Render.keepsBalanced_enclose (by decide), List.forall_mem_nil _⟩

/-- A table of strings has balanced codes if these are balanced. -/
theorem isBalanced_of_get?_ofStrings {entries : List (String × String)}
    (h : ∀ entry ∈ entries, IsBalanced (Text.ofString entry.2)) {key code : Text}
    (hcode : (Mapping.ofStrings entries).get? key = some code) : IsBalanced code :=
  Mapping.forall_mem_ofStrings (P := fun entry => IsBalanced entry.2) h _
    (OrderedMap.mem_entries_iff.mpr hcode)

/-- The codes of the built-in groups of LaTeX are balanced. -/
theorem isBalanced_codes : ∀ d ∈ definitions, ∀ mapping, d.mapping = some mapping →
    ∀ key code, mapping.get? key = some code → IsBalanced code := by
  have hnone : ∀ mapping : Mapping, none = some mapping →
      ∀ key code, mapping.get? key = some code → IsBalanced code := by
    intro mapping hmapping
    cases hmapping
  simp only [definitions, List.forall_mem_cons]
  refine ⟨hnone, hnone, ?greek, ?math, hnone, hnone, hnone, List.forall_mem_nil _⟩
  case greek =>
    intro mapping hmapping key code hcode
    cases hmapping
    exact isBalanced_of_get?_ofStrings (by decide +kernel) hcode
  case math =>
    intro mapping hmapping key code hcode
    cases hmapping
    exact isBalanced_of_get?_ofStrings (by decide +kernel) hcode

end Latex

/-! ## Backends -/

namespace Backend

/-- A backend for LaTeX whose groups write balanced text, over a registry of balanced codes. -/
structure KeepsBalanced (b : Backend) (reg : Registry) : Prop where
  representation : b.representation = .latex
  registry : reg.IsBalanced
  groups : b.AllGroups fun _ group => group.render.KeepsBalanced

variable {b : Backend} {reg : Registry} {peers : Representation → Peer}

/-- Evaluation with such a backend keeps text balanced, if escaping text without braces does. -/
theorem KeepsBalanced.target (h : b.KeepsBalanced reg) {manner : Manner}
    (hescape : ∀ t, IsBraceless t → IsBalanced (manner.escape t)) :
    (b.target reg peers).Keeps manner (fun u => u ≠ CodeUnit.leftBrace ∧ u ≠ CodeUnit.rightBrace)
      IsBalanced := by
  refine ⟨rfl, IsBalanced.append, by decide, fun ht => hescape _ (Latex.isBraceless_iff.mpr ht), ?_⟩
  intro callee keys texts rendered htexts hrendered
  obtain ⟨group, hgroup, hrender⟩ := exists_render_of_invoke hrendered
  exact h.groups callee group hgroup _ _ _ h.representation h.registry htexts hrender

/-- Balanced fragments are written as balanced text. -/
theorem KeepsBalanced.output (h : b.KeepsBalanced reg) (peers : Representation → Peer)
    {fragments : List Fragment} (hfragments : ∀ fragment ∈ fragments, IsBalanced fragment.text) :
    IsBalanced ((b.target reg peers).output fragments) := by
  rw [output_target, translate, h.representation]
  exact Latex.isBalanced_translate h.registry.macros hfragments

/-- What such a backend writes for a source without braces is balanced. -/
theorem KeepsBalanced.parse (h : b.KeepsBalanced reg) {options : Options}
    (hescape : ∀ t, IsBraceless t → IsBalanced (options.escape t)) {source out : Text}
    (hsource : IsBraceless source) (hout : (b.target reg peers).parse source options = .ok out) :
    IsBalanced out := by
  obtain ⟨fragments, heval, hresult⟩ := bind_eq_ok_iff.mp hout
  cases hresult
  exact h.output peers ((h.target hescape).evaluate (Latex.isBraceless_iff.mp hsource) heval)

/-- So is what it writes for a single call. -/
theorem KeepsBalanced.parseCallAt (h : b.KeepsBalanced reg) {options : Options}
    (hescape : ∀ t, IsBraceless t → IsBalanced (options.escape t)) {source : Text}
    (hsource : IsBraceless source) {offset : Int} {result : Text × Nat}
    (hout : (b.target reg peers).parseCallAt source offset options = .ok result) :
    IsBalanced result.1 := by
  cases offset with
  | negSucc => cases hout
  | ofNat offset =>
      obtain ⟨⟨text, stop⟩, heval, hresult⟩ := bind_eq_ok_iff.mp hout
      cases hresult
      have htext := (h.target hescape).evaluateCall (Latex.isBraceless_iff.mp hsource) heval
      exact h.output peers (List.forall_mem_singleton.mpr htext)

end Backend

/-! ## Engines -/

/-- The expressions of a glossary have no braces, and the codes that it spells out for LaTeX are
balanced. -/
structure Glossary.IsBalanced (g : Glossary) : Prop where
  expressions : ∀ entry ∈ g.expressions.entries, IsBraceless entry.2
  spellings : ∀ key code, (g.spellings .latex).get? key = some code → Latex.IsBalanced code

/-- The codes of all symbols are balanced in LaTeX. -/
theorem Glossary.IsBalanced.mapping {g : Glossary} (h : g.IsBalanced) {b : Backend}
    {reg : Registry} {peers : Representation → Peer} (hb : b.KeepsBalanced reg) {mapping : Mapping}
    (hmapping : g.mapping (b.target reg peers) = .ok mapping) {key code : Text}
    (hcode : mapping.get? key = some code) : Latex.IsBalanced code := by
  obtain ⟨entries, hentries, hresult⟩ := bind_eq_ok_iff.mp hmapping
  cases hresult
  have hmem := OrderedMap.mem_of_mem_entries_ofList (OrderedMap.mem_entries_iff.mpr hcode)
  obtain ⟨⟨key', expression⟩, hexpression, hentry⟩ := exists_of_mem_mapM hentries hmem
  obtain ⟨code', hcode', hresult⟩ := bind_eq_ok_iff.mp hentry
  cases hresult
  unfold Glossary.code at hcode'
  split at hcode'
  · rename_i spelling hspelling
    cases hcode'
    have hrepresentation : (b.target reg peers).representation = .latex := hb.representation
    rw [hrepresentation] at hspelling
    exact h.spellings _ _ hspelling
  · exact hb.parse (fun _ ht => ht.isBalanced) (h.expressions _ hexpression) hcode'

namespace Symbols

/-- The physical constants are defined and spelled without braces. -/
theorem isBalanced_physics : physics.IsBalanced := by
  refine ⟨Mapping.forall_mem_ofStrings ?_, fun key code hcode => ?_⟩
  · decide +kernel
  · exact Latex.isBalanced_of_get?_ofStrings (by decide +kernel) hcode

/-- The particles of the Standard Model are defined without braces. -/
theorem isBalanced_standardModel : standardModel.IsBalanced := by
  refine ⟨Mapping.forall_mem_ofStrings ?_, fun _ _ h => by cases h⟩
  decide +kernel

theorem isBalanced_glossaries : ∀ g ∈ glossaries, g.IsBalanced :=
  List.forall_mem_cons.mpr
    ⟨isBalanced_physics, List.forall_mem_singleton.mpr isBalanced_standardModel⟩

end Symbols

namespace Engine

/-- A new engine over an empty registry writes balanced LaTeX. -/
theorem keepsBalanced_create (strict : Bool) :
    ((create strict .empty).backend .latex).KeepsBalanced (create strict .empty).registry := by
  have huniform := uniform_create strict .empty .latex
  refine ⟨huniform.1, ⟨?_, marksAreMacros_create strict .empty⟩, ?_⟩
  · intro id table htable
    by_cases hbrings : Backend.brings .latex id = true
    · obtain ⟨d, hd, rfl, mapping, hmapping⟩ := Backend.brings_iff.mp hbrings
      rw [hasTables_create strict .empty .latex d hd mapping hmapping] at htable
      cases htable
      exact Latex.isBalanced_codes d hd mapping hmapping
    · rw [table?_create_of_not_brings strict .empty (Bool.eq_false_iff.mpr hbrings)] at htable
      cases htable
  · rw [backend_create]
    exact Backend.allGroups_standard (r := .latex)
      (P := fun _ group => group.render.KeepsBalanced) Latex.keepsBalanced_definitions strict

/-- Glossaries without braces keep LaTeX balanced. -/
theorem keepsBalanced_withGlossaries {gs : List Glossary} (hgs : ∀ g ∈ gs, g.IsBalanced)
    {e : Engine} (h : (e.backend .latex).KeepsBalanced e.registry) :
    ((e.withGlossaries gs).backend .latex).KeepsBalanced (e.withGlossaries gs).registry := by
  refine withGlossaries_induction
    (P := fun e => (e.backend .latex).KeepsBalanced e.registry) ?_ h
  intro g hg e r mapping he _ hmapping
  have hbackend : ((e.define r (g.definition mapping)).backend .latex).representation = .latex ∧
      ((e.define r (g.definition mapping)).backend .latex).AllGroups
        fun _ group => group.render.KeepsBalanced := by
    by_cases hr : .latex = r
    · subst hr
      rw [backend_define_self]
      exact ⟨he.representation, he.groups.define Render.keepsBalanced_lookup⟩
    · rw [backend_define_of_ne e r .latex _ hr]
      exact ⟨he.representation, he.groups⟩
  refine ⟨hbackend.1, ⟨?_, ?_⟩, hbackend.2⟩
  · intro id table htable
    have hregistry : (e.define r (g.definition mapping)).registry =
        e.registry.install r g.name ⟨g.description, mapping⟩ := rfl
    rw [hregistry, Registry.table?_install] at htable
    split at htable
    · rename_i hsame
      obtain ⟨rfl, rfl⟩ := hsame
      cases htable
      exact fun key code => (hgs g hg).mapping he hmapping
    · exact he.registry.codes id table htable
  · rw [isMark_define]
    exact he.registry.macros

/-- LaTeX output is balanced. Whatever the registry of an engine held before, no beginning of what
the engine with glossaries of the library writes for a source without braces has more braces that
close than such that open, and the whole of it has as many of both, if escaping keeps text without
braces balanced. So it is with a call that is written out by itself. -/
theorem latex_isBalanced (strict : Bool) (reg : Registry) {gs : List Glossary}
    (hgs : gs ⊆ Symbols.glossaries) {options : Options}
    (hescape : ∀ t, IsBraceless t → IsBalanced (options.escape t)) {source : Text}
    (hleft : CodeUnit.leftBrace ∉ source) (hright : CodeUnit.rightBrace ∉ source) {out : Text} :
    let e := (create strict reg).withGlossaries gs
    (e.parse .latex source options = .ok out ∨
      ∃ offset stop, (e.target .latex).parseCallAt source offset options = .ok (out, stop)) →
      (∀ s, s <+: out → s.count CodeUnit.rightBrace ≤ s.count CodeUnit.leftBrace) ∧
        out.count CodeUnit.leftBrace = out.count CodeUnit.rightBrace := by
  intro e h
  have hbalanced : ∀ g ∈ gs, g.IsBalanced := fun g hg => Symbols.isBalanced_glossaries g (hgs hg)
  have hfresh := keepsBalanced_withGlossaries hbalanced (keepsBalanced_create strict)
  -- what the registry held before need not be balanced, but it is not read
  rw [parse, target_eq_fresh] at h
  rw [← Latex.isBalanced_iff_count]
  rcases h with h | ⟨offset, stop, h⟩
  · exact hfresh.parse hescape ⟨hleft, hright⟩ h
  · exact hfresh.parseCallAt hescape ⟨hleft, hright⟩ h

/-- A bar in the middle of a text, over the last character of what is in front of it. -/
theorem latex_isBalanced_sample :
    let e := (create true .empty).withGlossaries [Symbols.physics]
    let source : Text := "ab$math(bar)$frac(½,$phy(k_B))"
    let out : Text := "a\\bar\x7bb\x7d\\frac\x7b\\unicode\x7bbd\x7d\x7d\x7bk_\x7bB\x7d\x7d"
    [Symbols.physics] ⊆ Symbols.glossaries ∧ (∀ t : Text, IsBraceless t → IsBalanced (id t)) ∧
      CodeUnit.leftBrace ∉ source ∧ CodeUnit.rightBrace ∉ source ∧
      e.parse .latex source = .ok out ∧
      (∀ s, s <+: out → s.count CodeUnit.rightBrace ≤ s.count CodeUnit.leftBrace) ∧
      out.count CodeUnit.leftBrace = out.count CodeUnit.rightBrace := by
  intro e source out
  have hgs : [Symbols.physics] ⊆ Symbols.glossaries := List.cons_subset_cons _ (List.nil_subset _)
  have hescape : ∀ t : Text, IsBraceless t → IsBalanced (id t) := fun _ ht => ht.isBalanced
  have hleft : CodeUnit.leftBrace ∉ source := by decide
  have hright : CodeUnit.rightBrace ∉ source := by decide
  have hparse : e.parse .latex source = .ok out := by decide +kernel
  exact ⟨hgs, hescape, hleft, hright, hparse,
    latex_isBalanced true .empty hgs hescape hleft hright (.inl hparse)⟩

end Engine

end Sigil
