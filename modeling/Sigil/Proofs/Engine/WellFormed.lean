import Sigil.Proofs.Backend.WellFormed
import Sigil.Proofs.Engine.Creation

/-!
# Engines write whole characters

The tables and groups of a new engine keep text whole, and so do those that glossaries add, whose
codes the engine wrote out itself (`Engine.KeepsWhole.withGlossaries`).
-/

namespace Sigil

/-- The codes of all built-in tables are whole. -/
theorem Registry.HasTables.isWholeAt {reg : Registry} {r : Representation} (h : reg.HasTables r)
    {id : Text} (hid : Backend.brings r id = true) : reg.IsWholeAt r id := by
  obtain ⟨d, hd, rfl, mapping, hmapping⟩ := Backend.brings_iff.mp hid
  intro table htable
  rw [h d hd mapping hmapping] at htable
  cases htable
  exact (Backend.keepsWhole_definitions r d hd).mapping mapping hmapping

/-- The codes of all tables are whole, and all groups render whole arguments to whole text. -/
structure Engine.KeepsWhole (e : Engine) : Prop where
  registry : e.registry.IsWhole
  groups : e.AllGroups fun _ _ group => group.render.KeepsWhole

namespace Engine

/-- An engine with the built-in groups keeps text whole, if the codes in its registry were whole. -/
theorem keepsWhole_create (strict : Bool) {reg : Registry} (hreg : reg.IsWhole) :
    (create strict reg).KeepsWhole := by
  have hgroups := allGroups_create (P := fun _ _ group => group.render.KeepsWhole)
    (fun r d hd => (Backend.keepsWhole_definitions r d hd).render) strict reg
  refine ⟨?_, hgroups⟩
  intro r id table htable
  by_cases hbrings : Backend.brings r id = true
  · exact (hasTables_create strict reg r).isWholeAt hbrings table htable
  · rw [table?_create_of_not_brings strict reg (Bool.eq_false_iff.mpr hbrings)] at htable
    exact hreg r id table htable

variable {e : Engine}

theorem KeepsWhole.backend (h : e.KeepsWhole) (r : Representation) :
    (e.backend r).KeepsWhole e.registry :=
  ⟨h.registry, h.groups r⟩

/-- Adding a group that keeps text whole. -/
theorem KeepsWhole.define (h : e.KeepsWhole) (r : Representation) {d : Definition}
    (hd : d.KeepsWhole) : (e.define r d).KeepsWhole :=
  ⟨hd.install r h.registry, h.groups.define hd.render⟩

end Engine

/-- The expressions of a glossary are whole, and so are the codes that it spells out. -/
structure Glossary.IsWhole (g : Glossary) : Prop where
  expressions : ∀ entry ∈ g.expressions.entries, entry.2.IsWhole
  spellings : ∀ r, (g.spellings r).IsWhole

namespace Glossary

variable {g : Glossary}

/-- The code of a symbol is whole. -/
theorem IsWhole.code (h : g.IsWhole) {b : Backend} {reg : Registry}
    {peers : Representation → Peer} (hb : b.KeepsWhole reg) {key expression code : Text}
    (hexpression : expression.IsWhole)
    (hcode : g.code (b.target reg peers) key expression = .ok code) : code.IsWhole := by
  unfold Glossary.code at hcode
  split at hcode
  · rename_i spelling hspelling
    cases hcode
    exact h.spellings _ key _ hspelling
  · exact hb.parse hexpression hcode

/-- The codes of all symbols are whole. -/
theorem IsWhole.mapping (h : g.IsWhole) {b : Backend} {reg : Registry}
    {peers : Representation → Peer} (hb : b.KeepsWhole reg) {mapping : Mapping}
    (hmapping : g.mapping (b.target reg peers) = .ok mapping) : mapping.IsWhole := by
  obtain ⟨entries, hentries, hresult⟩ := bind_eq_ok_iff.mp hmapping
  cases hresult
  refine Mapping.isWhole_ofList fun entry hentry => ?_
  obtain ⟨⟨key, expression⟩, hmem, hentry⟩ := exists_of_mem_mapM hentries hentry
  obtain ⟨code, hcode, hresult⟩ := bind_eq_ok_iff.mp hentry
  cases hresult
  exact h.code hb (h.expressions _ hmem) hcode

end Glossary

/-- The glossaries of the library consist of strings. -/
theorem Symbols.isWhole_glossaries : ∀ g ∈ glossaries, g.IsWhole := by
  have hstrings : ∀ entries : List (String × String),
      ∀ entry ∈ (Mapping.ofStrings entries).entries, entry.2.IsWhole := fun _ =>
    Mapping.forall_mem_ofStrings (P := fun entry => entry.2.IsWhole) fun entry _ =>
      Text.isWhole_ofString entry.2
  have hnone : Mapping.IsWhole {} := fun key code hcode => by cases hcode
  refine List.forall_mem_cons.mpr ⟨⟨hstrings _, fun r => ?_⟩,
    List.forall_mem_singleton.mpr ⟨hstrings _, fun r => hnone⟩⟩
  cases r with
  | plain | latex => exact Mapping.isWhole_ofStrings _
  | unicode | html => exact hnone

/-- Glossaries of whole expressions keep text whole. -/
theorem Engine.KeepsWhole.withGlossaries {gs : List Glossary} (hgs : ∀ g ∈ gs, g.IsWhole)
    {e : Engine} (h : e.KeepsWhole) : (e.withGlossaries gs).KeepsWhole := by
  refine withGlossaries_induction ?_ h
  intro g hg e r mapping he _ hmapping
  refine he.define r ⟨Render.keepsWhole_lookup, ?_⟩
  intro mapping' heq
  cases heq
  exact (hgs g hg).mapping (he.backend r) hmapping

end Sigil
