import Sigil.Proofs.Engine.Groups
import Sigil.Proofs.Expression.Preservation
import Sigil.Proofs.Html.Markup
import Sigil.Proofs.Registry.Tables

/-!
# Groups that write markup

A group is safe in HTML if it writes markup around markup whatever tables there are, or if it looks
codes up in a table of markup (`Group.IsSafe`). The built-in groups are safe over any registry that
they were installed in (`Backend.isSafe_standard`), and evaluation with safe groups keeps output
properly nested (`Backend.IsSafe.keeps`). No renderer puts an argument's key in front of a reader:
keys serve for lookups alone, and only the output text of an argument is written.
-/

namespace Sigil

open Html (IsNested isInert)

/-! ## Tables -/

/-- All codes of a table are markup. -/
def Mapping.IsNested (m : Mapping) : Prop :=
  ∀ key code, m.get? key = some code → Html.IsNested isInert code

/-- A table that is made of markup has markup for codes. -/
theorem Mapping.isNested_ofList {entries : List (Text × Text)}
    (h : ∀ entry ∈ entries, Html.IsNested isInert entry.2) :
    Mapping.IsNested (.ofList entries) := by
  intro key code hcode
  have hmem : (key, code) ∈ (OrderedMap.ofList entries).entries :=
    OrderedMap.mem_entries_iff.mpr hcode
  exact h _ (OrderedMap.mem_of_mem_entries_ofList hmem)

/-! ## Groups -/

/-- A renderer writes markup around markup, whatever tables there are. -/
def Render.IsSafe (render : Render) : Prop :=
  ∀ scope call rendered, (∀ t ∈ call.texts, IsNested isInert t) →
    render scope call = .ok rendered → IsNested isInert rendered

/-- A group of this name is safe in HTML over a registry. -/
def Group.IsSafe (group : Group) (reg : Registry) (callee : Text) : Prop :=
  group.render.IsSafe ∨
    group.render = Render.lookup ∧
      ∀ table, reg.table? .html callee = some table → table.mapping.IsNested

/-- A group stays safe as long as the table of its name does. -/
theorem Group.IsSafe.of_table? {group : Group} {reg reg' : Registry} {callee : Text}
    (h : group.IsSafe reg callee) (htable : reg'.table? .html callee = reg.table? .html callee) :
    group.IsSafe reg' callee := by
  rcases h with h | ⟨hlookup, hcodes⟩
  · exact .inl h
  · refine .inr ⟨hlookup, ?_⟩
    rw [htable]
    exact hcodes

/-- A safe group writes markup around markup. -/
theorem Group.IsSafe.render {group : Group} {scope : Scope} {call : Invocation} {rendered : Text}
    (h : group.IsSafe scope.registry call.group) (hhtml : scope.representation = .html)
    (htexts : ∀ t ∈ call.texts, IsNested isInert t)
    (hrendered : group.render scope call = .ok rendered) : IsNested isInert rendered := by
  rcases h with h | ⟨hlookup, hcodes⟩
  · exact h scope call rendered htexts hrendered
  -- the key may hold what it likes, since only the code found under it is written
  · rw [hlookup] at hrendered
    obtain ⟨key, -, hcode⟩ := bind_eq_ok_iff.mp hrendered
    rw [Scope.lookup, hhtml, Registry.lookup_eq_ok_iff] at hcode
    obtain ⟨table, htable, hcode⟩ := hcode
    exact hcodes table htable _ _ hcode

/-- An argument that was not given reads as text without reserved units. -/
theorem Html.isNested_absent : IsNested isInert Invocation.absent := .of_all rfl

theorem Html.isNested_getD {texts : List Text} (h : ∀ t ∈ texts, IsNested isInert t) (i : Nat) :
    IsNested isInert (texts.getD i Invocation.absent) := by
  rw [List.getD_eq_getElem?_getD]
  cases hget : texts[i]? with
  | none => exact isNested_absent
  | some t => exact h t (List.mem_of_getElem? hget)

theorem Html.isNested_trimmed {texts : List Text} (h : ∀ t ∈ texts, IsNested isInert t) {i : Nat}
    {t : Text} (ht : Invocation.trimmed texts i = .ok t) : IsNested isInert t := by
  obtain ⟨arg, hmem, rfl⟩ := Invocation.exists_mem_of_trimmed ht
  exact (h arg hmem).trim

namespace Html

theorem isSafe_renderReference : Render.IsSafe renderReference := by
  intro scope call rendered _ h
  obtain ⟨key, -, hreference⟩ := bind_eq_ok_iff.mp h
  obtain ⟨code, -, hcode⟩ := bind_eq_ok_iff.mp hreference
  cases hcode
  -- the characters may be any, also reserved ones, since each becomes a reference
  exact isNested_references code

theorem isSafe_renderEachReference : Render.IsSafe renderEachReference := by
  intro scope call rendered _ h
  obtain ⟨key, -, hreferences⟩ := bind_eq_ok_iff.mp h
  obtain ⟨codes, -, hcodes⟩ := bind_eq_ok_iff.mp hreferences
  cases hcodes
  exact .flatMap fun code _ => isNested_references code

theorem isSafe_enclose {tag : Text} (h : tag ∈ elements) :
    Render.IsSafe (.enclose (startTag tag) (endTag tag)) := by
  intro scope call rendered htexts hrendered
  cases hrendered
  show IsNested isInert (startTag tag ++ call.text ++ endTag tag)
  exact .of_element h (isNested_getD htexts 0)

theorem isSafe_renderFraction : Render.IsSafe renderFraction := by
  intro scope call rendered htexts hrendered
  obtain ⟨numerator, hnumerator, hrest⟩ := bind_eq_ok_iff.mp hrendered
  obtain ⟨denominator, hdenominator, hresult⟩ := bind_eq_ok_iff.mp hrest
  cases hresult
  have hsup : ("sup" : Text) ∈ elements := by decide
  have hsub : ("sub" : Text) ∈ elements := by decide
  have hslash : IsNested isInert "/" := .of_all rfl
  replace hnumerator := IsNested.of_element hsup (isNested_trimmed htexts hnumerator)
  replace hdenominator := IsNested.of_element hsub (isNested_trimmed htexts hdenominator)
  have hmiddle : Text.ofString "</sup>/<sub>" = endTag "sup" ++ ("/" ++ startTag "sub") := rfl
  show IsNested isInert
    ("<sup>" ++ numerator ++ "</sup>/<sub>" ++ denominator ++ "</sub>")
  rw [hmiddle]
  have hnested := (hnumerator.append hslash).append hdenominator
  simp only [List.append_assoc] at hnested ⊢
  exact hnested

/-- The named entities are complete references. -/
theorem isNested_greekEntities : Mapping.IsNested greekEntities := by
  refine Mapping.isNested_ofList ?_
  intro entry hentry
  obtain ⟨letter, hletter, rfl⟩ := List.mem_map.mp hentry
  exact .of_atom (.inr (.greek hletter))

end Html

/-- A group to be added is safe, together with the table it brings. -/
def Definition.IsSafe (d : Definition) : Prop :=
  d.render.IsSafe ∨
    d.render = Render.lookup ∧ ∃ mapping, d.mapping = some mapping ∧ mapping.IsNested

/-- Every built-in group is safe. -/
theorem Html.isSafe_definitions : ∀ d ∈ definitions, d.IsSafe := by
  simp only [definitions, List.forall_mem_cons]
  refine ⟨.inl isSafe_renderEachReference, .inl isSafe_renderFraction,
    .inr ⟨rfl, greekEntities, rfl, isNested_greekEntities⟩, .inl isSafe_renderReference,
    .inl isSafe_renderEachReference, .inl ?_, .inl ?_, List.forall_mem_nil _⟩
  · exact isSafe_enclose (by decide : ("sub" : Text) ∈ elements)
  · exact isSafe_enclose (by decide : ("sup" : Text) ∈ elements)

/-- A safe group is safe over a registry that it was installed in. -/
theorem Definition.IsSafe.group {d : Definition} (h : d.IsSafe) (reg : Registry) :
    d.group.IsSafe (d.install .html reg) d.name := by
  rcases h with h | ⟨hlookup, mapping, hmapping, hnested⟩
  · exact .inl h
  · refine .inr ⟨hlookup, ?_⟩
    intro table htable
    rw [Definition.install, hmapping, Registry.table?_install, if_pos ⟨rfl, rfl⟩] at htable
    cases htable
    exact hnested

/-! ## Backends -/

namespace Backend

/-- A backend writes HTML, and all of its groups are safe over a registry. -/
structure IsSafe (b : Backend) (reg : Registry) : Prop where
  representation : b.representation = .html
  groups : ∀ callee group, b.groups.get? callee = some group → group.IsSafe reg callee

/-- A backend stays safe as long as the tables for HTML stay as they are. -/
theorem IsSafe.of_table? {b : Backend} {reg reg' : Registry} (h : b.IsSafe reg)
    (htables : ∀ id, reg'.table? .html id = reg.table? .html id) : b.IsSafe reg' :=
  ⟨h.representation, fun callee group hgroup =>
    (h.groups callee group hgroup).of_table? (htables callee)⟩

/-- Adding a safe group keeps a backend safe. The table that the group brings is used by no other
group, since groups look codes up under their own names. -/
theorem IsSafe.define {b : Backend} {reg : Registry} (h : b.IsSafe reg) {d : Definition}
    (hd : d.IsSafe) : (b.define d).IsSafe (d.install .html reg) := by
  refine ⟨h.representation, ?_⟩
  intro callee group hgroup
  rw [Backend.define, OrderedMap.get?_insert] at hgroup
  split at hgroup
  · rename_i hcallee
    cases hgroup
    rw [hcallee]
    exact hd.group reg
  · rename_i hcallee
    exact (h.groups callee group hgroup).of_table?
      (d.table?_install reg fun hand => hcallee hand.2)

/-- Adding safe groups one after another keeps a backend safe. -/
theorem IsSafe.foldl_define {ds : List Definition} (hds : ∀ d ∈ ds, d.IsSafe) {b : Backend}
    {reg : Registry} (h : b.IsSafe reg) :
    (ds.foldl Backend.define b).IsSafe (ds.foldl (fun reg d => d.install .html reg) reg) := by
  induction ds generalizing b reg with
  | nil => exact h
  | cons d ds ih =>
      rw [List.forall_mem_cons] at hds
      exact ih hds.2 (h.define hds.1)

/-- The built-in groups are safe over every registry that they were installed in. -/
theorem isSafe_standard (strict : Bool) (reg : Registry) :
    (standard .html strict).IsSafe (Html.prepare reg) :=
  IsSafe.foldl_define Html.isSafe_definitions ⟨rfl, fun _ _ h => by cases h⟩

/-- Evaluation with safe groups keeps output properly nested, if escaping makes it so. -/
theorem IsSafe.keeps {b : Backend} {reg : Registry} (h : b.IsSafe reg)
    (peers : Representation → Peer) (manner : Manner) {admits : CodeUnit → Prop}
    (hescape : ∀ t : Text, (∀ u ∈ t, admits u) → IsNested isInert (manner.escape t)) :
    (b.target reg peers).Keeps manner admits (IsNested isInert) := by
  have hspace : IsNested isInert " " := .of_all rfl
  refine ⟨.nil, .append, hspace, hescape _, ?_⟩
  intro callee keys texts rendered htexts hrendered
  obtain ⟨group, hgroup, hrender⟩ := exists_render_of_invoke hrendered
  exact (h.groups callee group hgroup).render h.representation htexts hrender

/-- The last pass of a safe backend is that of HTML. -/
theorem IsSafe.output {b : Backend} {reg : Registry} {peers : Representation → Peer}
    (h : b.IsSafe reg) (fragments : List Fragment) :
    (b.target reg peers).output fragments = Html.translate (Fragment.concat fragments) := by
  simp only [output_target, translate, h.representation]

/-- What a safe backend writes is properly nested. -/
theorem IsSafe.parse {b : Backend} {reg : Registry} {peers : Representation → Peer}
    (h : b.IsSafe reg) {source : Text} {options : Options} {admits : CodeUnit → Prop}
    (hsource : ∀ u ∈ source, admits u)
    (hescape : ∀ t : Text, (∀ u ∈ t, admits u) → IsNested isInert (options.escape t))
    {output : Text} (hparse : (b.target reg peers).parse source options = .ok output) :
    IsNested Html.isPlain output := by
  obtain ⟨fragments, heval, houtput⟩ := bind_eq_ok_iff.mp hparse
  cases houtput
  have hkeeps := h.keeps peers (options.manner (b.target reg peers)) hescape
  rw [h.output]
  exact (hkeeps.concat (hkeeps.evaluate hsource heval)).translate

/-- A call that a safe backend writes by itself is properly nested. -/
theorem IsSafe.parseCallAt {b : Backend} {reg : Registry} {peers : Representation → Peer}
    (h : b.IsSafe reg) {source : Text} {offset : Int} {options : Options}
    {admits : CodeUnit → Prop}
    (hsource : ∀ u ∈ source, admits u)
    (hescape : ∀ t : Text, (∀ u ∈ t, admits u) → IsNested isInert (options.escape t))
    {output : Text} {stop : Nat}
    (hparse : (b.target reg peers).parseCallAt source offset options = .ok (output, stop)) :
    IsNested Html.isPlain output := by
  cases offset with
  | negSucc _ => cases hparse
  | ofNat offset =>
      obtain ⟨result, heval, hresult⟩ := bind_eq_ok_iff.mp hparse
      cases hresult
      have hkeeps := h.keeps peers (options.manner (b.target reg peers)) hescape
      have hcall := hkeeps.evaluateCall hsource heval
      rw [h.output, Fragment.concat, List.flatMap_singleton]
      exact hcall.translate

end Backend

end Sigil
