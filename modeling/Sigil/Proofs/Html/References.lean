import Sigil.Proofs.Engine.WellFormed
import Sigil.Proofs.Html.Decoding
import Sigil.Registry.History

/-!
# Symbols as references

HTML looks digits, mathematical symbols and script letters up in the tables for Unicode, as Unicode
itself does, and writes the codes as references. So the two agree on what there is to find and on
every fault, whatever happened to the tables (`Engine.html_refers_to_unicode`). Unicode writes the
codes of single characters one after another and HTML their references, which comes to the same as
long as no two codes join halves of a pair. Hence the tables must have whole codes
(`Registry.IsWholeAt`), and all changes to a registry that install whole codes keep that.
-/

namespace Sigil

open Registry (Change)

/-! ## Tables of whole codes -/

/-- If the change installs a table, all codes of that are whole. -/
def Registry.Change.IsWhole : Change → Prop
  | install _ _ table => table.mapping.IsWhole
  | uninstall .. => True
  | setMarks .. => True

namespace Registry.IsWholeAt

variable {reg : Registry} {r : Representation} {id : Text}

/-- A change replaces the table, takes it away or leaves it alone. -/
theorem apply (h : reg.IsWholeAt r id) {c : Change} (hc : c.IsWhole) :
    (reg.apply c).IsWholeAt r id := by
  intro table htable
  cases c with
  | install r' id' table' =>
      rw [Registry.apply, table?_install] at htable
      split at htable
      · cases htable
        exact hc
      · exact h table htable
  | uninstall r' id' =>
      rw [Registry.apply, table?_uninstall] at htable
      split at htable
      · cases htable
      · exact h table htable
  | setMarks r' marks =>
      rw [Registry.apply, table?_setMarks] at htable
      exact h table htable

theorem applyAll (h : reg.IsWholeAt r id) {changes : List Change}
    (hchanges : ∀ c ∈ changes, c.IsWhole) : (reg.applyAll changes).IsWholeAt r id := by
  induction changes generalizing reg with
  | nil => exact h
  | cons c changes ih =>
      rw [List.forall_mem_cons] at hchanges
      exact ih (h.apply hchanges.1) hchanges.2

end Registry.IsWholeAt

/-! ## Renderers -/

namespace Html

variable {reg : Registry} {call : Invocation}

/-- Writing references for a symbol is looking it up for Unicode and writing references. -/
theorem renderReference_eq (r : Representation) (peers peers' : Representation → Peer) :
    renderReference ⟨reg, r, peers⟩ call = do
      return references (← Render.lookup ⟨reg, .unicode, peers'⟩ call) := by
  simp only [renderReference, Render.lookup, Render.ofKey, lookupReference, Scope.lookup, bind_assoc]

/-- Writing references for each of the characters is looking all of them up for Unicode and writing
references, if the codes are whole. -/
theorem renderEachReference_eq (h : reg.IsWholeAt .unicode call.group) (r : Representation)
    (peers peers' : Representation → Peer) :
    renderEachReference ⟨reg, r, peers⟩ call = do
      return references (← Render.lookupEach ⟨reg, .unicode, peers'⟩ call) := by
  simp only [renderEachReference, Render.lookupEach, Render.ofKey, lookupEachReference,
    Scope.lookupEach, bind_assoc, pure_bind]
  refine bind_congr fun key => ?_
  refine bind_congr_ok ?_
  intro codes hcodes
  have hwhole : ∀ code ∈ codes, code.IsWhole := by
    intro code hmem
    obtain ⟨character, -, hlookup⟩ := exists_of_mem_mapM hcodes hmem
    exact h.lookup hlookup
  exact congrArg Except.ok (Text.IsWhole.mapPoints_flatten _ hwhole).symm

end Html

/-! ## Engines -/

namespace Engine

/-- The groups that HTML renders through the tables for Unicode. -/
def referredGroups : List Text := ["arabic", "math", "script"]

/-- Unicode has a built-in table for each of these groups. -/
theorem brings_referredGroups :
    ∀ callee ∈ referredGroups, Backend.brings .unicode callee = true := by
  decide

/-- HTML writes the references of what Unicode writes, over any tables that Unicode has whole codes
in. -/
theorem invoke_html_eq_references (strict : Bool) (reg : Registry) (gs : List Glossary)
    {callee : Text} (hcallee : callee ∈ referredGroups) {reg' : Registry}
    (hwhole : reg'.IsWholeAt .unicode callee) (peers : Representation → Peer) (t : Text) :
    let e := (create strict reg).withGlossaries gs
    ((e.backend .html).target reg' peers).invoke callee [t] [t] = do
      return Html.references
        (← ((e.backend .unicode).target reg' peers).invoke callee [t] [t]) := by
  intro e
  have hgroup : ∀ {d d' : Definition}, d ∈ Backend.definitions .html →
      d' ∈ Backend.definitions .unicode → d.name = callee ∧ d'.name = callee →
      d.arity.accepts [t].length = true ∧ d'.arity.accepts [t].length = true →
      (d.render ⟨reg', .html, peers⟩ ⟨callee, [t], [t]⟩ = do
        return Html.references (← d'.render ⟨reg', .unicode, peers⟩ ⟨callee, [t], [t]⟩)) →
      ((e.backend .html).target reg' peers).invoke callee [t] [t] = do
        return Html.references
          (← ((e.backend .unicode).target reg' peers).invoke callee [t] [t]) := by
    rintro d d' hd hd' ⟨rfl, hname⟩ ⟨harity, harity'⟩ hrender
    have hunicode := invoke_builtIn strict reg gs hd' reg' peers harity' [t]
    rw [hname] at hunicode
    rw [invoke_builtIn strict reg gs hd reg' peers harity, hunicode]
    exact hrender
  simp only [referredGroups, List.mem_cons, List.not_mem_nil, or_false] at hcallee
  rcases hcallee with rfl | rfl | rfl
  · exact hgroup (List.mem_of_getElem? (i := 0) rfl) (List.mem_of_getElem? (i := 0) rfl)
      ⟨rfl, rfl⟩ ⟨rfl, rfl⟩ (Html.renderEachReference_eq hwhole .html peers peers)
  · exact hgroup (List.mem_of_getElem? (i := 3) rfl) (List.mem_of_getElem? (i := 3) rfl)
      ⟨rfl, rfl⟩ ⟨rfl, rfl⟩ (Html.renderReference_eq .html peers peers)
  · exact hgroup (List.mem_of_getElem? (i := 4) rfl) (List.mem_of_getElem? (i := 4) rfl)
      ⟨rfl, rfl⟩ ⟨rfl, rfl⟩ (Html.renderEachReference_eq hwhole .html peers peers)

/-- The tables of an engine with glossaries that HTML renders through have whole codes. -/
theorem isWholeAt_withGlossaries (strict : Bool) (reg : Registry) (gs : List Glossary)
    {callee : Text} (hcallee : callee ∈ referredGroups) :
    ((create strict reg).withGlossaries gs).registry.IsWholeAt .unicode callee :=
  (hasTables_withGlossaries strict reg gs .unicode).isWholeAt (brings_referredGroups callee hcallee)

/-- Whatever whole codes were installed, removed or replaced in the registry of an engine with
glossaries, HTML writes digits, mathematical symbols and script letters as references to the
characters that Unicode writes, from which these can be read back, and refuses what Unicode refuses
for the same reason. -/
theorem html_refers_to_unicode (strict : Bool) (reg : Registry) (gs : List Glossary)
    {changes : List Change} (hchanges : ∀ c ∈ changes, c.IsWhole) {callee : Text}
    (hcallee : callee ∈ referredGroups) (t : Text) :
    let e := ((create strict reg).withGlossaries gs).change changes
    (∀ u, (e.target .unicode).invoke callee [t] [t] = .ok u →
      (e.target .html).invoke callee [t] [t] = .ok (Html.references u) ∧
        Html.decode (Html.references u) = u) ∧
      ∀ fault, (e.target .unicode).invoke callee [t] [t] = .error fault →
        (e.target .html).invoke callee [t] [t] = .error fault := by
  intro e
  have hwhole := (isWholeAt_withGlossaries strict reg gs hcallee).applyAll hchanges
  have hhtml : (e.target .html).invoke callee [t] [t] = do
      return Html.references (← (e.target .unicode).invoke callee [t] [t]) :=
    invoke_html_eq_references strict reg gs hcallee hwhole e.peers t
  constructor
  · intro u hu
    rw [hhtml, hu]
    exact ⟨rfl, Html.decode_references u⟩
  · intro fault hfault
    rw [hhtml, hfault]
    rfl

/-- A symbol of a table that was replaced, and letters whose table is gone. -/
theorem html_refers_to_unicode_sample :
    let changes : List Change :=
      [.install .unicode "math" ⟨"letters", .ofStrings [("x", "𝑥́")]⟩, .uninstall .unicode "script",
        .setMarks .unicode []]
    let e := ((create true .empty).withGlossaries []).change changes
    (∀ c ∈ changes, c.IsWhole) ∧ Text.ofString "math" ∈ referredGroups ∧
      (e.target .unicode).invoke "math" [" x "] [" x "] = .ok "𝑥́" ∧
      (e.target .html).invoke "math" [" x "] [" x "] = .ok "&#x1d465;&#x301;" ∧
      Html.decode "&#x1d465;&#x301;" = "𝑥́" ∧ Text.ofString "script" ∈ referredGroups ∧
      (e.target .unicode).invoke "script" ["A"] ["A"] = .error (.noTable .unicode "script") ∧
      (e.target .html).invoke "script" ["A"] ["A"] = .error (.noTable .unicode "script") := by
  intro changes e
  have hchanges : ∀ c ∈ changes, c.IsWhole := by
    simp only [changes, List.forall_mem_cons]
    exact ⟨Mapping.isWhole_ofStrings _, trivial, trivial, List.forall_mem_nil _⟩
  have hmath : Text.ofString "math" ∈ referredGroups := by decide
  have hscript : Text.ofString "script" ∈ referredGroups := by decide
  have hsymbol : (e.target .unicode).invoke "math" [" x "] [" x "] = .ok "𝑥́" := by decide +kernel
  have hletter : (e.target .unicode).invoke "script" ["A"] ["A"] =
      .error (.noTable .unicode "script") := by
    decide +kernel
  have hreferences : Html.references "𝑥́" = "&#x1d465;&#x301;" := by decide
  obtain ⟨hhtml, hdecode⟩ :=
    (html_refers_to_unicode true .empty [] hchanges hmath " x ").1 _ hsymbol
  rw [hreferences] at hhtml hdecode
  exact ⟨hchanges, hmath, hsymbol, hhtml, hdecode, hscript, hletter,
    (html_refers_to_unicode true .empty [] hchanges hscript "A").2 _ hletter⟩

/-- Of codes that are halves of a pair Unicode makes one character, and HTML two references. -/
example :
    let halves : Mapping := .ofList [(Text.ofString "0", [0xD835]), (Text.ofString "1", [0xDC65])]
    let e := (create false .empty).change [.install .unicode "arabic" ⟨"halves", halves⟩]
    (e.target .unicode).invoke "arabic" ["01"] ["01"] = .ok "𝑥" ∧
      (e.target .html).invoke "arabic" ["01"] ["01"] = .ok "&#xd835;&#xdc65;" := by
  decide +kernel

end Engine

end Sigil
