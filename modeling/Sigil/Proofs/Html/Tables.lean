import Sigil.Proofs.Html.References
import Sigil.Proofs.Registry.History

/-!
# The tables that HTML renders through

Preparing HTML brings the tables for Unicode to a registry that never heard of Unicode, and leaves
the table of the Greek letters in any case. No other table changes (`Backend.table?_prepare_html`).
So HTML finds the tables that it renders through if no change of the history mentions Unicode, or
the tables are there already, and only then (`Backend.prepare_html_finds_tables`). Marks or a single
table for Unicode are enough for the built-in tables not to be brought
(`Backend.prepare_html_lacks_tables`).
-/

namespace Sigil

open Registry (Change)

/-! ## Lookups without a table -/

namespace Registry

variable {reg : Registry} {r : Representation} {id : Text}

/-- A lookup fails for want of a table where there is none, whatever the key. -/
theorem lookup_eq_noTable_iff {key : Text} :
    reg.lookup r id key = .error (.noTable r id) ↔ reg.table? r id = none := by
  rw [lookup_eq]
  cases reg.table? r id with
  | none => simp
  | some table =>
      cases hcode : table.mapping.get? key <;> simp [hcode, Fault.noTable, Fault.noEntry]

/-- A registry lacks a representation if no change of its history mentions it. -/
theorem hasRepresentation_ofHistory_eq_false_iff {changes : List Change} :
    (ofHistory changes).hasRepresentation r = false ↔
      ∀ c ∈ changes, c.mentioned? ≠ some r := by
  rw [Bool.eq_false_iff, Ne, (ofHistory_records changes).hasRepresentation]
  simp

end Registry

namespace Html

variable {reg : Registry} {callee : Text} (r : Representation) (peers : Representation → Peer)

/-- A symbol cannot be referred to for want of a table if there is none. -/
theorem exists_renderReference_noTable_iff :
    (∃ t, renderReference ⟨reg, r, peers⟩ ⟨callee, [t], [t]⟩ =
      .error (.noTable .unicode callee)) ↔ reg.table? .unicode callee = none := by
  constructor
  · intro h
    obtain ⟨t, h⟩ := h
    exact Registry.lookup_eq_noTable_iff.mp (eq_error_of_map h)
  · intro h
    refine ⟨[], bind_eq_error_iff.mpr (.inr ⟨[], rfl, bind_eq_error_iff.mpr (.inl ?_)⟩)⟩
    exact Registry.lookup_eq_noTable_iff.mpr h

/-- A text of symbols cannot be referred to for want of a table if there is none. Nothing is looked
up for an empty text. -/
theorem exists_renderEachReference_noTable_iff :
    (∃ t, renderEachReference ⟨reg, r, peers⟩ ⟨callee, [t], [t]⟩ =
      .error (.noTable .unicode callee)) ↔ reg.table? .unicode callee = none := by
  constructor
  · intro h
    obtain ⟨t, h⟩ := h
    obtain ⟨before, character, after, -, -, hlookup⟩ := mapM_eq_error_iff.mp (eq_error_of_map h)
    exact Registry.lookup_eq_noTable_iff.mp hlookup
  · intro h
    refine ⟨"0", bind_eq_error_iff.mpr (.inr ⟨"0", rfl, bind_eq_error_iff.mpr (.inl ?_)⟩)⟩
    refine mapM_eq_error_iff.mpr ⟨[], "0", [], rfl, List.forall_mem_nil _, ?_⟩
    exact Registry.lookup_eq_noTable_iff.mpr h

/-- The Greek letters are the only group that brings a table for HTML itself. -/
theorem name_of_mapping : ∀ d ∈ definitions, d.mapping.isSome = true → d.name = "greek" := by
  decide +kernel

end Html

namespace Backend

/-- Preparing HTML leaves its table of Greek letters, and the built-in tables for Unicode if Unicode
was never mentioned. All other tables are as they were. -/
theorem table?_prepare_html (reg : Registry) (r : Representation) (id : Text) :
    (prepare .html reg).table? r id =
      if r = .html ∧ id = "greek" then some ⟨"Greek letters", Html.greekEntities⟩
      else if r = .unicode ∧ reg.hasRepresentation .unicode = false then
        (prepare .unicode reg).table? r id
      else reg.table? r id := by
  split
  · rename_i hgreek
    obtain ⟨rfl, rfl⟩ := hgreek
    exact hasTables_prepare .html reg Html.definitions[2] (List.getElem_mem _) _ rfl
  · rename_i hgreek
    have hinstall : ∀ d ∈ Html.definitions, r = .html ∧ id = d.name → d.mapping = none := by
      intro d hd hsame
      obtain ⟨hr, rfl⟩ := hsame
      rw [Option.eq_none_iff_forall_ne_some]
      intro mapping hmapping
      exact hgreek ⟨hr, Html.name_of_mapping d hd (by rw [hmapping]; rfl)⟩
    refine (Definition.table?_foldl_install _ _ hinstall).trans ?_
    cases hmentioned : reg.hasRepresentation .unicode with
    | true => rw [if_pos rfl, if_neg fun hand => Bool.noConfusion hand.2]
    | false =>
        rw [if_neg Bool.false_ne_true]
        split
        · rfl
        · rename_i hr
          exact table?_prepare_of_ne (fun heq => hr ⟨heq, rfl⟩) nofun reg id

/-- HTML finds a table that it renders through if nothing mentioned Unicode before, so that the
built-in tables are brought, or the table is there already. -/
theorem hasTable_prepare_html_iff {changes : List Change} {callee : Text}
    (hcallee : callee ∈ Engine.referredGroups) :
    (prepare .html (Registry.ofHistory changes)).hasTable .unicode callee = true ↔
      (∀ c ∈ changes, c.mentioned? ≠ some .unicode) ∨
        (Registry.ofHistory changes).hasTable .unicode callee = true := by
  obtain ⟨d, hd, rfl, mapping, hmapping⟩ :=
    brings_iff.mp (Engine.brings_referredGroups callee hcallee)
  rw [← Registry.hasRepresentation_ofHistory_eq_false_iff, Registry.hasTable, table?_prepare_html,
    if_neg fun hand => Representation.noConfusion hand.1]
  split
  · rename_i hnew
    rw [hasTables_prepare .unicode _ d hd mapping hmapping]
    exact iff_of_true rfl (.inl hnew.2)
  · rename_i hold
    exact (or_iff_right fun hnew => hold ⟨rfl, hnew⟩).symm

/-- A new backend for HTML fails for want of a table exactly where it has none to render through. -/
theorem exists_invoke_noTable_iff (strict : Bool) {reg : Registry} (peers : Representation → Peer)
    {callee : Text} (hcallee : callee ∈ Engine.referredGroups) :
    (∃ t, ((standard .html strict).target reg peers).invoke callee [t] [t] =
      .error (.noTable .unicode callee)) ↔ reg.hasTable .unicode callee = false := by
  have hgroup : ∀ {d}, d ∈ definitions .html → d.name = callee →
      (∀ t : Text, d.arity.accepts [t].length = true) →
      ((∃ t, d.render ⟨reg, .html, peers⟩ ⟨callee, [t], [t]⟩ =
        .error (.noTable .unicode callee)) ↔ reg.table? .unicode callee = none) →
      ((∃ t, ((standard .html strict).target reg peers).invoke callee [t] [t] =
        .error (.noTable .unicode callee)) ↔ reg.table? .unicode callee = none) := by
    intro d hd hname harity hrender
    subst hname
    rw [← hrender]
    refine exists_congr fun t => ?_
    rw [invoke_eq_render (get?_groups_standard strict hd) reg peers (harity t)]
    rfl
  rw [Registry.hasTable, Option.isSome_eq_false_iff, Option.isNone_iff_eq_none]
  simp only [Engine.referredGroups, List.mem_cons, List.not_mem_nil, or_false] at hcallee
  rcases hcallee with rfl | rfl | rfl
  · exact hgroup (List.mem_of_getElem? (i := 0) rfl) rfl (fun _ => rfl)
      (Html.exists_renderEachReference_noTable_iff .html peers)
  · exact hgroup (List.mem_of_getElem? (i := 3) rfl) rfl (fun _ => rfl)
      (Html.exists_renderReference_noTable_iff .html peers)
  · exact hgroup (List.mem_of_getElem? (i := 4) rfl) rfl (fun _ => rfl)
      (Html.exists_renderEachReference_noTable_iff .html peers)

/-- Whatever was done to a registry before HTML was prepared over it, HTML has the tables that it
renders through, and no call fails for want of them, if nothing mentioned Unicode or the tables were
there, and in no other case. Every table that was there is unchanged, except that of the Greek
letters. -/
theorem prepare_html_finds_tables (changes : List Change) (strict : Bool) :
    let before := Registry.ofHistory changes
    let after := prepare .html before
    (∀ callee ∈ Engine.referredGroups,
      (after.hasTable .unicode callee = true ↔
        (∀ c ∈ changes, c.mentioned? ≠ some .unicode) ∨
          before.hasTable .unicode callee = true) ∧
      ∀ peers, (after.hasTable .unicode callee = true ↔
        ∀ t, ((standard .html strict).target after peers).invoke callee [t] [t] ≠
          .error (.noTable .unicode callee))) ∧
      ∀ r id table, before.table? r id = some table → ¬(r = .html ∧ id = "greek") →
        after.table? r id = some table := by
  intro before after
  refine ⟨?_, ?_⟩
  · intro callee hcallee
    refine ⟨hasTable_prepare_html_iff hcallee, fun peers => ?_⟩
    rw [← not_exists, exists_invoke_noTable_iff strict peers hcallee, Bool.not_eq_false]
  · intro r id table htable hgreek
    rw [table?_prepare_html, if_neg hgreek]
    split
    · rename_i hnew
      obtain ⟨rfl, hmentioned⟩ := hnew
      rw [Registry.table?_of_not_mentioned hmentioned] at htable
      cases htable
    · exact htable

/-- A registry with a table for HTML alone gets the tables, and one whose table for script letters
was replaced keeps that one. -/
theorem prepare_html_finds_tables_sample :
    let accents : Table := ⟨"accents", .ofStrings [("acute", "&acute;")]⟩
    let letters : Table := ⟨"letters", .ofStrings [("A", "𝔸")]⟩
    let reg := prepare .html (Registry.ofHistory [.install .html "accents" accents])
    let reg' := prepare .html (Registry.ofHistory [.install .unicode "script" letters])
    let engine : Engine := ⟨reg, .ofFn fun r => standard r, 1000⟩
    Text.ofString "math" ∈ Engine.referredGroups ∧ reg.hasTable .unicode "math" = true ∧
      engine.invoke .html "math" ["deg"] ["deg"] = .ok "&#xb0;" ∧
      reg.table? .html "accents" = some accents ∧
      Text.ofString "script" ∈ Engine.referredGroups ∧ reg'.hasTable .unicode "script" = true ∧
      reg'.table? .unicode "script" = some letters ∧ reg'.hasTable .unicode "math" = false := by
  intro accents letters reg reg' engine
  have hmath : Text.ofString "math" ∈ Engine.referredGroups := by decide
  have hscript : Text.ofString "script" ∈ Engine.referredGroups := by decide
  have hnew : ∀ c ∈ [Change.install .html "accents" accents], c.mentioned? ≠ some .unicode := by
    decide
  have hscripts : (Registry.ofHistory [.install .unicode "script" letters]).hasTable .unicode
      "script" = true := by
    decide +kernel
  have hlost : ¬((∀ c ∈ [Change.install .unicode "script" letters],
        c.mentioned? ≠ some .unicode) ∨
      (Registry.ofHistory [.install .unicode "script" letters]).hasTable .unicode "math" =
        true) := by
    decide +kernel
  obtain ⟨hfinds, hkeeps⟩ := prepare_html_finds_tables [.install .html "accents" accents] false
  obtain ⟨hfinds', hkeeps'⟩ := prepare_html_finds_tables [.install .unicode "script" letters] false
  refine ⟨hmath, (hfinds _ hmath).1.mpr (.inl hnew), by decide +kernel,
    hkeeps .html "accents" accents rfl (by decide), hscript,
    (hfinds' _ hscript).1.mpr (.inr hscripts),
    hkeeps' .unicode "script" letters rfl (by decide), ?_⟩
  rw [Bool.eq_false_iff, Ne, (hfinds' _ hmath).1]
  exact hlost

/-- A single table for Unicode keeps the built-in ones from being brought. -/
theorem prepare_html_lacks_tables :
    let units : Table := ⟨"units", .ofStrings [("euro", "€")]⟩
    let reg := prepare .html (Registry.ofHistory [.install .unicode "units" units])
    let engine : Engine := ⟨reg, .ofFn fun r => standard r, 1000⟩
    (∀ callee ∈ Engine.referredGroups, reg.hasTable .unicode callee = false) ∧
      engine.invoke .html "math" ["deg"] ["deg"] = .error (.noTable .unicode "math") ∧
      ¬∀ changes, ∀ callee ∈ Engine.referredGroups,
        (prepare .html (Registry.ofHistory changes)).hasTable .unicode callee = true := by
  intro units reg engine
  have hnone : ∀ callee ∈ Engine.referredGroups, reg.hasTable .unicode callee = false := by
    decide +kernel
  refine ⟨hnone, by decide +kernel, ?_⟩
  intro hall
  have hmath : Text.ofString "math" ∈ Engine.referredGroups := by decide
  exact Bool.false_ne_true
    ((hnone _ hmath).symm.trans (hall [.install .unicode "units" units] _ hmath))

end Backend

end Sigil
