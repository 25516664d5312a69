import Sigil.Proofs.Engine.Groups
import Sigil.Proofs.Expression.WellFormed

/-!
# Backends write whole characters

Every built-in group renders whole arguments to whole text if the codes in the tables are whole
(`Backend.keepsWhole_definitions`): what it takes from an argument are trimmed texts and characters.
So a backend with such groups writes whole text for a whole source (`Backend.KeepsWhole.parse`).
-/

namespace Sigil

open Text (IsWhole)

/-! ## Tables -/

/-- All codes of a table are whole. -/
def Mapping.IsWhole (m : Mapping) : Prop := ∀ key code, m.get? key = some code → code.IsWhole

/-- A table that is made of whole codes. -/
theorem Mapping.isWhole_ofList {entries : List (Text × Text)}
    (h : ∀ entry ∈ entries, entry.2.IsWhole) : Mapping.IsWhole (.ofList entries) := by
  intro key code hcode
  have hmem : (key, code) ∈ (OrderedMap.ofList entries).entries :=
    OrderedMap.mem_entries_iff.mpr hcode
  exact h _ (OrderedMap.mem_of_mem_entries_ofList hmem)

/-- A table of strings. -/
theorem Mapping.isWhole_ofStrings (entries : List (String × String)) :
    (Mapping.ofStrings entries).IsWhole := by
  refine Mapping.isWhole_ofList fun entry hentry => ?_
  obtain ⟨given, -, rfl⟩ := List.mem_map.mp hentry
  exact Text.isWhole_ofString given.2

/-- The keys of a table of strings. -/
theorem Mapping.isWhole_keys_ofStrings (entries : List (String × String)) :
    ∀ key ∈ (Mapping.ofStrings entries).keys, key.IsWhole := by
  intro key hkey
  obtain ⟨entry, hentry, rfl⟩ := List.mem_map.mp hkey
  exact Mapping.forall_mem_ofStrings (P := fun entry => entry.1.IsWhole)
    (fun given _ => Text.isWhole_ofString given.1) entry hentry

namespace Registry

/-- The table under an id has whole codes, if there is one. -/
def IsWholeAt (reg : Registry) (r : Representation) (id : Text) : Prop :=
  ∀ table, reg.table? r id = some table → table.mapping.IsWhole

/-- All codes of all tables are whole. -/
def IsWhole (reg : Registry) : Prop :=
  ∀ r id table, reg.table? r id = some table → table.mapping.IsWhole

variable {reg : Registry} {r : Representation}

/-- A lookup finds a whole code. -/
theorem IsWholeAt.lookup {id key code : Text} (h : reg.IsWholeAt r id)
    (hcode : reg.lookup r id key = .ok code) : code.IsWhole := by
  obtain ⟨table, htable, hentry⟩ := lookup_eq_ok_iff.mp hcode
  exact h table htable key code hentry

theorem IsWhole.lookup (h : reg.IsWhole) {id key code : Text}
    (hcode : reg.lookup r id key = .ok code) : code.IsWhole := by
  have hat : reg.IsWholeAt r id := h r id
  exact hat.lookup hcode

/-- A table of whole codes is added, or replaces another. -/
theorem IsWhole.install (h : reg.IsWhole) (r : Representation) (id : Text) {table : Table}
    (htable : table.mapping.IsWhole) : (reg.install r id table).IsWhole := by
  intro r' id' table' htable'
  rw [table?_install] at htable'
  split at htable'
  · cases htable'
    exact htable
  · exact h r' id' table' htable'

theorem isWhole_empty : empty.IsWhole := by
  intro r id table htable
  cases htable

end Registry

/-! ## Renderers -/

/-- A renderer writes whole text for whole arguments, if the codes in the tables are whole. -/
def Render.KeepsWhole (render : Render) : Prop :=
  ∀ scope call rendered, scope.registry.IsWhole → (∀ key ∈ call.keys, key.IsWhole) →
    (∀ t ∈ call.texts, t.IsWhole) → render scope call = .ok rendered → rendered.IsWhole

/-- An argument is whole also where it was not given. -/
theorem Invocation.isWhole_getD {texts : List Text} (h : ∀ t ∈ texts, t.IsWhole) (i : Nat) :
    (texts.getD i absent).IsWhole := by
  rw [List.getD_eq_getElem?_getD]
  cases hget : texts[i]? with
  | none => exact Text.isWhole_ofString "undefined"
  | some t => exact h t (List.mem_of_getElem? hget)

/-- An argument without the blanks around it is whole. -/
theorem Invocation.isWhole_trimmed {texts : List Text} (h : ∀ t ∈ texts, t.IsWhole) {i : Nat}
    {t : Text} (ht : trimmed texts i = .ok t) : t.IsWhole := by
  obtain ⟨arg, hmem, rfl⟩ := exists_mem_of_trimmed ht
  exact (h arg hmem).trim

/-- The codes of characters are whole, one after another. -/
theorem Scope.isWhole_lookupEach {scope : Scope} (h : scope.registry.IsWhole) {table t code : Text}
    (hcode : scope.lookupEach table t = .ok code) : code.IsWhole := by
  obtain ⟨codes, hcodes, hresult⟩ := bind_eq_ok_iff.mp hcode
  cases hresult
  refine .flatten fun code hmem => ?_
  obtain ⟨character, -, hlookup⟩ := exists_of_mem_mapM hcodes hmem
  exact h.lookup hlookup

namespace Render

/-- What is made of a whole key has to be whole. -/
theorem keepsWhole_ofKey {f : Scope → Text → Text → Except Fault Text}
    (hf : ∀ scope table key code, scope.registry.IsWhole → key.IsWhole →
      f scope table key = .ok code → code.IsWhole) : Render.KeepsWhole (.ofKey f) := by
  intro scope call rendered hreg hkeys _ hrendered
  obtain ⟨key, hkey, hcode⟩ := bind_eq_ok_iff.mp hrendered
  exact hf scope call.group key rendered hreg (Invocation.isWhole_trimmed hkeys hkey) hcode

theorem keepsWhole_lookup : Render.KeepsWhole .lookup :=
  keepsWhole_ofKey fun _ _ _ _ hreg _ hcode => hreg.lookup hcode

theorem keepsWhole_lookupEach : Render.KeepsWhole .lookupEach :=
  keepsWhole_ofKey fun _ _ _ _ hreg _ hcodes => Scope.isWhole_lookupEach hreg hcodes

theorem keepsWhole_enclose (front back : String) : Render.KeepsWhole (.enclose front back) := by
  intro scope call rendered _ _ htexts hrendered
  cases hrendered
  have htext := Invocation.isWhole_getD htexts 0
  exact ((Text.isWhole_ofString front).append htext).append (Text.isWhole_ofString back)

end Render

namespace Plain

theorem keepsWhole_renderMath : Render.KeepsWhole renderMath := by
  refine Render.keepsWhole_ofKey fun scope table symbol code hreg hsymbol hcode => ?_
  unfold mathSymbol at hcode
  split at hcode
  · cases hcode
    exact hsymbol
  · exact hreg.lookup hcode

theorem keepsWhole_renderFraction : Render.KeepsWhole renderFraction := by
  intro scope call rendered _ _ htexts hrendered
  obtain ⟨numerator, hnumerator, hrest⟩ := bind_eq_ok_iff.mp hrendered
  obtain ⟨denominator, hdenominator, hresult⟩ := bind_eq_ok_iff.mp hrest
  cases hresult
  replace hnumerator := Invocation.isWhole_trimmed htexts hnumerator
  replace hdenominator := Invocation.isWhole_trimmed htexts hdenominator
  exact (hnumerator.append (Text.isWhole_ofString "/")).append hdenominator

theorem isWhole_spellOut (entries : List (String × String)) :
    (spellOut (.ofStrings entries)).IsWhole := by
  refine Mapping.isWhole_ofList fun entry hentry => ?_
  obtain ⟨key, hkey, rfl⟩ := List.mem_map.mp hentry
  exact Mapping.isWhole_keys_ofStrings entries key hkey

end Plain

/-- A fraction is a code, its parts, or the codes of its parts. -/
theorem Unicode.keepsWhole_renderFraction : Render.KeepsWhole renderFraction := by
  intro scope call rendered hreg hkeys _ hrendered
  obtain ⟨numerator, hnumerator, hrest⟩ := bind_eq_ok_iff.mp hrendered
  obtain ⟨denominator, hdenominator, hfraction⟩ := bind_eq_ok_iff.mp hrest
  replace hnumerator := Invocation.isWhole_trimmed hkeys hnumerator
  replace hdenominator := Invocation.isWhole_trimmed hkeys hdenominator
  simp only [fraction] at hfraction
  split at hfraction
  · cases hfraction
    exact hnumerator
  split at hfraction
  · exact hreg.lookup hfraction
  split at hfraction
  · split at hfraction
    · cases hfraction
      exact (hnumerator.append (Text.isWhole_ofString "/")).append hdenominator
    · obtain ⟨raised, hraised, hrest⟩ := bind_eq_ok_iff.mp hfraction
      obtain ⟨slash, hslash, hrest⟩ := bind_eq_ok_iff.mp hrest
      obtain ⟨lowered, hlowered, hresult⟩ := bind_eq_ok_iff.mp hrest
      cases hresult
      exact ((Scope.isWhole_lookupEach hreg hraised).append (hreg.lookup hslash)).append
        (Scope.isWhole_lookupEach hreg hlowered)
  · exact hreg.lookup hfraction

/-- Numbers are spelled with whole characters. -/
theorem Text.isWhole_hex (n : Nat) : IsWhole (hex n) :=
  isWhole_of_ascii fun _ hu => isAscii_of_isHexDigit (isHexDigit_of_mem_hex hu)

namespace Html

theorem isWhole_reference (c : Int) : (reference c).IsWhole := by
  have hsign : IsWhole (if c < 0 then "-" else "") := by
    split
    · exact Text.isWhole_ofString "-"
    · exact .nil
  exact ((Text.isWhole_ofString "&#x").append (hsign.append (Text.isWhole_hex _))).append
    (Text.isWhole_ofString ";")

theorem isWhole_references (t : Text) : (references t).IsWhole :=
  Text.isWhole_mapPoints (fun c => isWhole_reference c) t

theorem keepsWhole_renderReference : Render.KeepsWhole renderReference := by
  refine Render.keepsWhole_ofKey fun scope table key rendered _ _ hrendered => ?_
  obtain ⟨code, -, hresult⟩ := bind_eq_ok_iff.mp hrendered
  cases hresult
  exact isWhole_references code

theorem keepsWhole_renderEachReference : Render.KeepsWhole renderEachReference := by
  refine Render.keepsWhole_ofKey fun scope table key rendered _ _ hrendered => ?_
  obtain ⟨codes, -, hresult⟩ := bind_eq_ok_iff.mp hrendered
  cases hresult
  rw [List.flatMap_def]
  refine .flatten fun piece hpiece => ?_
  obtain ⟨code, -, rfl⟩ := List.mem_map.mp hpiece
  exact isWhole_references code

theorem keepsWhole_renderFraction : Render.KeepsWhole renderFraction := by
  intro scope call rendered _ _ htexts hrendered
  obtain ⟨numerator, hnumerator, hrest⟩ := bind_eq_ok_iff.mp hrendered
  obtain ⟨denominator, hdenominator, hresult⟩ := bind_eq_ok_iff.mp hrest
  cases hresult
  replace hnumerator := Invocation.isWhole_trimmed htexts hnumerator
  replace hdenominator := Invocation.isWhole_trimmed htexts hdenominator
  have hraised := (Text.isWhole_ofString "<sup>").append hnumerator
  exact ((hraised.append (Text.isWhole_ofString "</sup>/<sub>")).append hdenominator).append
    (Text.isWhole_ofString "</sub>")

theorem isWhole_greekEntities : greekEntities.IsWhole := by
  refine Mapping.isWhole_ofList fun entry hentry => ?_
  obtain ⟨letter, hletter, rfl⟩ := List.mem_map.mp hentry
  have hwhole := Mapping.isWhole_keys_ofStrings _ letter hletter
  exact ((Text.isWhole_ofString "&").append hwhole).append (Text.isWhole_ofString ";")

end Html

namespace Latex

theorem isWhole_brace {t : Text} (h : t.IsWhole) : (brace t).IsWhole :=
  ((Text.isWhole_ofString "\x7b").append h).append (Text.isWhole_ofString "\x7d")

theorem keepsWhole_renderScript : Render.KeepsWhole renderScript := by
  intro scope call rendered _ _ htexts hrendered
  obtain ⟨letters, hletters, hresult⟩ := bind_eq_ok_iff.mp hrendered
  cases hresult
  have hwhole := Invocation.isWhole_trimmed htexts hletters
  exact (Text.isWhole_ofString "\\mathcal").append (isWhole_brace hwhole)

theorem keepsWhole_renderFraction : Render.KeepsWhole renderFraction := by
  intro scope call rendered _ _ htexts hrendered
  cases hrendered
  have hnumerator := isWhole_brace (Invocation.isWhole_getD htexts 0)
  have hdenominator := isWhole_brace (Invocation.isWhole_getD htexts 1)
  exact ((Text.isWhole_ofString "\\frac").append hnumerator).append hdenominator

end Latex

/-! ## Built-in groups -/

/-- A group to be added renders whole arguments to whole text, and the codes that it brings are
whole. -/
structure Definition.KeepsWhole (d : Definition) : Prop where
  render : d.render.KeepsWhole
  mapping : ∀ mapping, d.mapping = some mapping → mapping.IsWhole

namespace Definition

variable {name description : Text} {render : Render} {mapping : Mapping} {arity : Arity}

theorem KeepsWhole.of_render (h : render.KeepsWhole) :
    KeepsWhole ⟨name, description, render, none, arity⟩ :=
  ⟨h, nofun⟩

theorem KeepsWhole.of_mapping (h : render.KeepsWhole) (hmapping : mapping.IsWhole) :
    KeepsWhole ⟨name, description, render, some mapping, arity⟩ := by
  refine ⟨h, ?_⟩
  intro mapping' heq
  cases heq
  exact hmapping

/-- Installing the table of such a group keeps a registry whole. -/
theorem KeepsWhole.install {d : Definition} (h : d.KeepsWhole) (r : Representation)
    {reg : Registry} (hreg : reg.IsWhole) : (d.install r reg).IsWhole := by
  unfold Definition.install
  split
  · rename_i mapping hmapping
    exact hreg.install r d.name (h.mapping mapping hmapping)
  · exact hreg

end Definition

namespace Backend

/-- Every built-in group keeps text whole. -/
theorem keepsWhole_definitions (r : Representation) : ∀ d ∈ definitions r, d.KeepsWhole := by
  have hstrings := Mapping.isWhole_ofStrings
  have hspelled := Plain.isWhole_spellOut
  have hlookup := Render.keepsWhole_lookup
  have heach := Render.keepsWhole_lookupEach
  have henclose := Render.keepsWhole_enclose
  cases r with
  | plain =>
      simp only [definitions, Plain.definitions, List.forall_mem_cons]
      exact ⟨.of_mapping heach (hspelled _),
        .of_render Plain.keepsWhole_renderFraction,
        .of_mapping hlookup (hspelled _),
        .of_mapping Plain.keepsWhole_renderMath (hstrings _),
        .of_mapping heach (hspelled _), .of_render (henclose _ _),
        .of_render (henclose _ _), List.forall_mem_nil _⟩
  | unicode =>
      simp only [definitions, Unicode.definitions, List.forall_mem_cons]
      exact ⟨.of_mapping heach (hstrings _),
        .of_mapping Unicode.keepsWhole_renderFraction (hstrings _),
        .of_mapping hlookup (hstrings _), .of_mapping hlookup (hstrings _),
        .of_mapping heach (hstrings _), .of_mapping heach (hstrings _),
        .of_mapping heach (hstrings _), List.forall_mem_nil _⟩
  | html =>
      simp only [definitions, Html.definitions, List.forall_mem_cons]
      exact ⟨.of_render Html.keepsWhole_renderEachReference,
        .of_render Html.keepsWhole_renderFraction,
        .of_mapping hlookup Html.isWhole_greekEntities,
        .of_render Html.keepsWhole_renderReference,
        .of_render Html.keepsWhole_renderEachReference,
        .of_render (henclose _ _), .of_render (henclose _ _),
        List.forall_mem_nil _⟩
  | latex =>
      simp only [definitions, Latex.definitions, List.forall_mem_cons]
      exact ⟨.of_render (henclose _ _),
        .of_render Latex.keepsWhole_renderFraction,
        .of_mapping hlookup (hstrings _), .of_mapping hlookup (hstrings _),
        .of_render Latex.keepsWhole_renderScript, .of_render (henclose _ _),
        .of_render (henclose _ _), List.forall_mem_nil _⟩

/-! ## Evaluation -/

/-- The groups of a backend render whole arguments to whole text over a registry of whole codes. -/
structure KeepsWhole (b : Backend) (reg : Registry) : Prop where
  registry : reg.IsWhole
  groups : b.AllGroups fun _ group => group.render.KeepsWhole

/-- Evaluation with such groups keeps text whole, if escaping does. -/
theorem KeepsWhole.target {b : Backend} {reg : Registry} {peers : Representation → Peer}
    (h : b.KeepsWhole reg) {manner : Manner}
    (hescape : ∀ t : Text, t.IsWhole → (manner.escape t).IsWhole)
    (hpair : ∀ u v : CodeUnit, u.isLeading = true → v.isTrailing = true →
      (manner.escape [u] ++ manner.escape [v]).IsWhole) :
    (b.target reg peers).KeepsWhole manner := by
  refine ⟨hescape _, hpair _ _, ?_⟩
  intro callee keys texts rendered hkeys htexts hrendered
  obtain ⟨group, hgroup, hrender⟩ := exists_render_of_invoke hrendered
  exact h.groups callee group hgroup _ _ _ h.registry hkeys htexts hrender

/-- Text that is not escaped is as whole as it was. -/
theorem KeepsWhole.target_id {b : Backend} {reg : Registry} {peers : Representation → Peer}
    (h : b.KeepsWhole reg) (strict : Bool) : (b.target reg peers).KeepsWhole ⟨strict, id⟩ :=
  h.target (fun _ ht => ht) fun _ _ hu hv => .pair hu hv .nil

/-! ## Output -/

/-- The last pass over whole text writes whole text. -/
theorem isWhole_translate (b : Backend) (reg : Registry) {rendered : Text}
    (h : rendered.IsWhole) (fragments : List Fragment) :
    (b.translate reg rendered fragments).IsWhole := by
  have hascii : ∀ c < 128, IsWhole (Text.ofCodePoint c) := fun c hc =>
    Text.isWhole_ofCodePoint (by omega) (.inl (by omega))
  unfold translate
  split
  · refine Text.isWhole_mapPoints (fun c => ?_) rendered
    unfold Plain.translatePoint
    split
    · exact hascii c (by assumption)
    · exact Text.isWhole_ofString "?"
  · exact h
  · refine Text.isWhole_mapPoints (fun c => ?_) rendered
    unfold Html.translatePoint
    split
    · exact Text.isWhole_ofString "<br>"
    split
    · exact hascii c (by assumption)
    · exact Html.isWhole_reference c
  · refine Text.isWhole_mapPoints (fun c => ?_) _
    unfold Latex.translatePoint
    split
    · exact Text.isWhole_ofString "\\\\"
    split
    · exact Text.isWhole_ofString "\\ "
    split
    · exact hascii c (by assumption)
    · exact (Text.isWhole_ofString "\\unicode").append (Latex.isWhole_brace (Text.isWhole_hex c))

/-- What such a backend writes for a whole source is whole. -/
theorem KeepsWhole.parse {b : Backend} {reg : Registry} {peers : Representation → Peer}
    (h : b.KeepsWhole reg) {source : Text} (hsource : source.IsWhole) {strict : Option Bool}
    {out : Text} (hparse : (b.target reg peers).parse source { strict } = .ok out) :
    out.IsWhole := by
  obtain ⟨fragments, heval, hout⟩ := bind_eq_ok_iff.mp hparse
  cases hout
  have hfragments := (h.target_id _).evaluate hsource heval
  rw [output_target]
  exact b.isWhole_translate reg (Fragment.isWhole_concat hfragments) fragments

end Backend

end Sigil
