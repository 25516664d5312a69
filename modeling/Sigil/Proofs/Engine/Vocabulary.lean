import Sigil.Proofs.Html.References

/-!
# The symbols that the representations know

A representation has output for a symbol if its table has the key (`Engine.renders_lookup_iff`), and
for a text of symbols if its table has every character (`Engine.renders_lookupEach_iff`). The tables
of the representations have the same keys, and HTML goes through those for Unicode, so a symbol that
one representation knows the others know as well (`Engine.same_symbols`). Plain text leaves the
letters and digits that it knows as they are, and has output for any mathematical symbol.
-/

namespace Sigil

open Symbols

/-! ## Keys of tables -/

/-- A lookup in a table finds what the table has under the key. -/
theorem Registry.lookup_eq_ok_iff_get? {reg : Registry} {r : Representation} {id : Text}
    {table : Table} (htable : reg.table? r id = some table) {key code : Text} :
    reg.lookup r id key = .ok code ↔ table.mapping.get? key = some code := by
  rw [lookup_eq, htable]
  cases hcode : table.mapping.get? key <;> simp [hcode]

/-- A lookup in a built-in table finds what the table has under the key. -/
theorem Registry.HasTables.lookup_eq_ok_iff {reg : Registry} {r : Representation}
    (h : reg.HasTables r) {d : Definition} (hd : d ∈ Backend.definitions r) {mapping : Mapping}
    (hmapping : d.mapping = some mapping) {key code : Text} :
    reg.lookup r d.name key = .ok code ↔ mapping.get? key = some code :=
  Registry.lookup_eq_ok_iff_get? (h d hd mapping hmapping)

/-- A lookup in a built-in table succeeds if the table has the key. -/
theorem Registry.HasTables.exists_lookup_iff {reg : Registry} {r : Representation}
    (h : reg.HasTables r) {d : Definition} (hd : d ∈ Backend.definitions r) {mapping : Mapping}
    (hmapping : d.mapping = some mapping) {key : Text} :
    (∃ code, reg.lookup r d.name key = .ok code) ↔ key ∈ mapping.keys := by
  rw [OrderedMap.mem_keys_iff, Option.isSome_iff_exists]
  exact exists_congr fun code => h.lookup_eq_ok_iff hd hmapping

namespace Scope

variable {scope : Scope} {id s : Text} {table : Table}
  (htable : scope.registry.table? scope.representation id = some table)
include htable

/-- A lookup finds the entries of the table. -/
theorem lookup_eq_ok_iff {key code : Text} :
    scope.lookup id key = .ok code ↔ (key, code) ∈ table.mapping.entries :=
  (Registry.lookup_eq_ok_iff_get? htable).trans OrderedMap.mem_entries_iff.symm

/-- The texts that can be looked up are those of keys. -/
theorem exists_lookupEach_iff :
    (∃ t, scope.lookupEach id s = .ok t) ↔ ∀ c ∈ s.characters, c ∈ table.mapping.keys := by
  have hkey : ∀ {c}, (∃ code, scope.lookup id c = .ok code) ↔ c ∈ table.mapping.keys := by
    intro c
    simp only [lookup_eq_ok_iff htable, OrderedMap.keys, List.mem_map, Prod.exists,
      exists_and_right, exists_eq_right]
  constructor
  · intro h c hc
    obtain ⟨t, ht⟩ := h
    obtain ⟨codes, hcodes, -⟩ := bind_eq_ok_iff.mp ht
    obtain ⟨code, -, hcode⟩ := exists_result_of_mapM hcodes hc
    exact hkey.mp ⟨code, hcode⟩
  · intro h
    obtain ⟨codes, hcodes⟩ := exists_results_of_mapM fun c hc => hkey.mpr (h c hc)
    exact ⟨codes.flatten, bind_eq_ok_iff.mpr ⟨codes, hcodes, rfl⟩⟩

end Scope

/-- A code of a table that spells its keys out is the key. -/
theorem Plain.eq_of_get?_spellOut {m : Mapping} {key code : Text}
    (h : (spellOut m).get? key = some code) : code = key :=
  ((OrderedMap.get?_ofList_keys_eq_some_iff m id).mp h).2.symm

theorem Plain.mem_keys_spellOut_iff {m : Mapping} {key : Text} :
    key ∈ (spellOut m).keys ↔ key ∈ m.keys :=
  m.mem_keys_ofList_keys_iff id

/-- A mathematical symbol is its code, or stands for itself where there is none. -/
theorem Plain.exists_mathSymbol {scope : Scope} {id : Text} {table : Table}
    (h : scope.registry.table? scope.representation id = some table) (symbol : Text) :
    ∃ out, mathSymbol scope id symbol = .ok out := by
  simp only [mathSymbol, Scope.lookup, Registry.lookup_eq, h]
  cases table.mapping.get? symbol with
  | none => exact ⟨symbol, rfl⟩
  | some code => exact ⟨code, rfl⟩

namespace Engine

/-- The representation has output for a call of the group with the one argument. -/
def Renders (e : Engine) (r : Representation) (callee t : Text) : Prop :=
  ∃ out, (e.target r).invoke callee [t] [t] = .ok out

variable (strict : Bool) (reg : Registry) (gs : List Glossary)

/-! ## Groups that look symbols up -/

section

variable {r : Representation} {name description : Text} {mapping : Mapping}

/-- A call of a built-in group that looks its argument up. -/
theorem invoke_lookup
    (hd : { name, description, mapping := some mapping } ∈ Backend.definitions r) (t : Text) :
    let e := (create strict reg).withGlossaries gs
    (e.target r).invoke name [t] [t] = e.registry.lookup r name t.trim := by
  exact invoke_builtIn strict reg gs hd _ _ rfl [t]

/-- A call of a built-in group that looks the characters of its argument up. -/
theorem invoke_lookupEach
    (hd : { name, description, mapping := some mapping, render := .lookupEach } ∈
      Backend.definitions r) (t : Text) :
    let e := (create strict reg).withGlossaries gs
    (e.target r).invoke name [t] [t] = do
      return (← t.trim.characters.mapM (e.registry.lookup r name)).flatten := by
  exact invoke_builtIn strict reg gs hd _ _ rfl [t]

/-- A built-in group that looks its argument up knows the keys of its table. -/
theorem renders_lookup_iff
    (hd : { name, description, mapping := some mapping } ∈ Backend.definitions r) (t : Text) :
    ((create strict reg).withGlossaries gs).Renders r name t ↔ t.trim ∈ mapping.keys := by
  rw [Renders, invoke_lookup strict reg gs hd]
  exact (hasTables_withGlossaries strict reg gs r).exists_lookup_iff hd rfl

/-- A built-in group that looks the characters of its argument up knows the texts of keys of its
table. -/
theorem renders_lookupEach_iff
    (hd : { name, description, mapping := some mapping, render := .lookupEach } ∈
      Backend.definitions r) (t : Text) :
    ((create strict reg).withGlossaries gs).Renders r name t ↔
      ∀ c ∈ t.trim.characters, c ∈ mapping.keys := by
  rw [Renders, invoke_lookupEach strict reg gs hd]
  let e := (create strict reg).withGlossaries gs
  let scope : Scope := ⟨e.registry, r, e.peers⟩
  have htable : scope.registry.table? scope.representation name = some ⟨description, mapping⟩ :=
    hasTables_withGlossaries strict reg gs r _ hd mapping rfl
  exact Scope.exists_lookupEach_iff htable

end

/-! ## Plain text -/

section

variable {name description out : Text} {m : Mapping}

/-- What plain text spells out is the argument without blanks around it. -/
theorem eq_trim_of_invoke_lookup
    (hd : { name, description, mapping := some (Plain.spellOut m) } ∈ Backend.definitions .plain)
    {t : Text} (hout : (((create strict reg).withGlossaries gs).target .plain).invoke name [t] [t] =
      .ok out) : out = t.trim := by
  rw [invoke_lookup strict reg gs hd] at hout
  have htables := hasTables_withGlossaries strict reg gs .plain
  exact Plain.eq_of_get?_spellOut ((htables.lookup_eq_ok_iff hd rfl).mp hout)

/-- So it is where every character is spelled out. -/
theorem eq_trim_of_invoke_lookupEach
    (hd : { name, description, mapping := some (Plain.spellOut m), render := .lookupEach } ∈
      Backend.definitions .plain)
    {t : Text} (hout : (((create strict reg).withGlossaries gs).target .plain).invoke name [t] [t] =
      .ok out) : out = t.trim := by
  rw [invoke_lookupEach strict reg gs hd] at hout
  have htables := hasTables_withGlossaries strict reg gs .plain
  obtain ⟨codes, hcodes, hresult⟩ := bind_eq_ok_iff.mp hout
  have hspelled : codes.map id = t.trim.characters.map id :=
    map_eq_of_mapM (fun c code hcode =>
      Plain.eq_of_get?_spellOut ((htables.lookup_eq_ok_iff hd rfl).mp hcode)) hcodes
  rw [List.map_id, List.map_id] at hspelled
  cases hresult
  rw [hspelled, Text.flatten_characters]

/-- Plain text has output for any mathematical symbol, since what has no code stands for itself. -/
theorem renders_plain_math (t : Text) :
    ((create strict reg).withGlossaries gs).Renders .plain "math" t := by
  have hd : Plain.definitions[3] ∈ Backend.definitions .plain := List.getElem_mem _
  have htable := hasTables_withGlossaries strict reg gs .plain _ hd Plain.math rfl
  let e := (create strict reg).withGlossaries gs
  have hsymbol : ∃ out, Plain.mathSymbol ⟨e.registry, .plain, e.peers⟩ "math" t.trim = .ok out :=
    Plain.exists_mathSymbol htable t.trim
  obtain ⟨out, hout⟩ := hsymbol
  exact ⟨out, (invoke_builtIn strict reg gs hd _ _ rfl [t]).trans hout⟩

end

/-! ## All representations -/

/-- Every representation knows the Greek letters by the names that Unicode has for them. -/
theorem renders_greek_iff (r : Representation) (t : Text) :
    ((create strict reg).withGlossaries gs).Renders r "greek" t ↔
      t.trim ∈ Unicode.greek.keys := by
  have hlatex : Latex.greek.keys = Unicode.greek.keys := by decide +kernel
  have hgroup : ∀ {d}, (Backend.definitions r)[2]? = some d → d ∈ Backend.definitions r :=
    List.mem_of_getElem?
  cases r with
  | plain =>
      refine (renders_lookup_iff strict reg gs (hgroup rfl) t).trans ?_
      exact Plain.mem_keys_spellOut_iff
  | unicode => exact renders_lookup_iff strict reg gs (hgroup rfl) t
  | html =>
      refine (renders_lookup_iff strict reg gs (hgroup rfl) t).trans ?_
      exact Unicode.greek.mem_keys_ofList_keys_iff _
  | latex =>
      refine (renders_lookup_iff strict reg gs (hgroup rfl) t).trans ?_
      rw [hlatex]

/-- Plain text knows the texts of keys that it spells out as Unicode knows them. -/
theorem renders_plain_iff_unicode {name description description' : Text} {m : Mapping}
    (hplain : { name, description, mapping := some (Plain.spellOut m), render := .lookupEach } ∈
      Backend.definitions .plain)
    (hunicode : { name, description := description', mapping := some m, render := .lookupEach } ∈
      Backend.definitions .unicode) (t : Text) :
    let e := (create strict reg).withGlossaries gs
    e.Renders .plain name t ↔ e.Renders .unicode name t := by
  intro e
  rw [renders_lookupEach_iff strict reg gs hplain, renders_lookupEach_iff strict reg gs hunicode]
  exact forall₂_congr fun _ _ => Plain.mem_keys_spellOut_iff

/-- HTML knows the symbols that it writes references for as Unicode does. -/
theorem renders_html_iff_unicode {callee : Text} (hcallee : callee ∈ referredGroups) (t : Text) :
    let e := (create strict reg).withGlossaries gs
    e.Renders .html callee t ↔ e.Renders .unicode callee t := by
  intro e
  have hhtml := invoke_html_eq_references strict reg gs hcallee
    (isWholeAt_withGlossaries strict reg gs hcallee) e.peers t
  constructor
  · rintro ⟨out, hout⟩
    obtain ⟨u, hu, -⟩ := bind_eq_ok_iff.mp (hhtml.symm.trans hout)
    exact ⟨u, hu⟩
  · rintro ⟨u, hu⟩
    exact ⟨Html.references u, hhtml.trans (bind_eq_ok_iff.mpr ⟨u, hu, rfl⟩)⟩

/-- The representations know the same symbols. A call of the Greek group has output in one of them
if it has in any other, digits and script letters are known to plain text, Unicode and HTML alike,
and mathematical symbols to Unicode, HTML and LaTeX. Plain text leaves digits, script letters and
the names of Greek letters as they are, without the blanks around them, and takes any mathematical
symbol. -/
theorem same_symbols (strict : Bool) (reg : Registry) (gs : List Glossary) (t : Text) :
    let e := (create strict reg).withGlossaries gs
    (∀ r r', e.Renders r "greek" t ↔ e.Renders r' "greek" t) ∧
      (∀ callee ∈ [Text.ofString "arabic", "script"],
        (e.Renders .plain callee t ↔ e.Renders .unicode callee t) ∧
          (e.Renders .unicode callee t ↔ e.Renders .html callee t)) ∧
      (∀ callee ∈ [Text.ofString "arabic", "script", "greek"], ∀ out,
        (e.target .plain).invoke callee [t] [t] = .ok out → out = t.trim) ∧
      (e.Renders .unicode "math" t ↔ e.Renders .html "math" t) ∧
      (e.Renders .html "math" t ↔ e.Renders .latex "math" t) ∧
      e.Renders .plain "math" t := by
  intro e
  have hdefined : ∀ (r : Representation) (i : Nat) {d}, (Backend.definitions r)[i]? = some d →
      d ∈ Backend.definitions r := fun _ _ _ => List.mem_of_getElem?
  have hhtml : ∀ callee ∈ referredGroups, e.Renders .unicode callee t ↔ e.Renders .html callee t :=
    fun callee hcallee => (renders_html_iff_unicode strict reg gs hcallee t).symm
  refine ⟨?greek, ?each, ?spelled, hhtml _ (by decide), ?math, renders_plain_math strict reg gs t⟩
  case greek =>
    intro r r'
    rw [renders_greek_iff, renders_greek_iff]
  case each =>
    simp only [List.forall_mem_cons]
    refine ⟨⟨?_, hhtml _ (by decide)⟩, ⟨?_, hhtml _ (by decide)⟩, List.forall_mem_nil _⟩
    · exact renders_plain_iff_unicode strict reg gs (hdefined .plain 0 rfl)
        (hdefined .unicode 0 rfl) t
    · exact renders_plain_iff_unicode strict reg gs (hdefined .plain 4 rfl)
        (hdefined .unicode 4 rfl) t
  case spelled =>
    simp only [List.forall_mem_cons]
    exact ⟨fun _ => eq_trim_of_invoke_lookupEach strict reg gs (hdefined .plain 0 rfl),
      fun _ => eq_trim_of_invoke_lookupEach strict reg gs (hdefined .plain 4 rfl),
      fun _ => eq_trim_of_invoke_lookup strict reg gs (hdefined .plain 2 rfl),
      List.forall_mem_nil _⟩
  case math =>
    have hkeys : Latex.math.keys = Unicode.math.keys := by decide +kernel
    rw [← hhtml _ (by decide), renders_lookup_iff strict reg gs (hdefined .unicode 3 rfl),
      renders_lookup_iff strict reg gs (hdefined .latex 3 rfl), hkeys]

/-- A letter with blanks around it, no digits at all, and what is no mathematical symbol. -/
theorem same_symbols_sample :
    let e := (create false .empty).withGlossaries []
    (e.target .plain).invoke "greek" [" alpha "] [" alpha "] = .ok "alpha" ∧
      Text.ofString "alpha" = Text.trim " alpha " ∧ e.Renders .latex "greek" " alpha " ∧
      (e.target .unicode).invoke "arabic" [" "] [" "] = .ok [] ∧ e.Renders .html "arabic" " " ∧
      (e.target .unicode).invoke "math" ["alpha"] ["alpha"] =
        .error (.noEntry .unicode "math" "alpha") ∧
      ¬e.Renders .latex "math" "alpha" ∧ e.Renders .plain "math" "alpha" := by
  intro e
  have hletter : (e.target .plain).invoke "greek" [" alpha "] [" alpha "] = .ok "alpha" := by
    decide +kernel
  have hdigits : (e.target .unicode).invoke "arabic" [" "] [" "] = .ok [] := by decide +kernel
  have hunknown : (e.target .unicode).invoke "math" ["alpha"] ["alpha"] =
      .error (.noEntry .unicode "math" "alpha") := by
    decide +kernel
  obtain ⟨hgreek, -, hspelled, -⟩ := same_symbols false .empty [] " alpha "
  obtain ⟨-, heach, -⟩ := same_symbols false .empty [] " "
  obtain ⟨-, -, -, hhtml, hlatex, hplain⟩ := same_symbols false .empty [] "alpha"
  refine ⟨hletter, hspelled _ (by decide) _ hletter, (hgreek .plain .latex).mp ⟨_, hletter⟩,
    hdigits, ((heach _ (by decide)).2.mp ⟨_, hdigits⟩), hunknown, ?_, hplain⟩
  intro hknown
  obtain ⟨out, hout⟩ := hhtml.mpr (hlatex.mpr hknown)
  rw [hunknown] at hout
  cases hout

end Engine

end Sigil
