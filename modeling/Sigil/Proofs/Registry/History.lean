import Sigil.Proofs.Occurrences
import Sigil.Registry.History

/-!
# What the history of a registry tells

A registry answers every question as the history of its changes does (`Registry.ofHistory_records`).
The table under an id is the one that the last change there installed, the marks are those that were
set last, and whoever was there first comes first. Each answer is taken through the history one
change at a time, and no change gives another answer than those that it is about.
-/

namespace Sigil.Registry

/-- A history with one more change leaves what the change makes of the registry before it. -/
theorem ofHistory_concat (changes : List Change) (c : Change) :
    ofHistory (changes ++ [c]) = (ofHistory changes).apply c := by
  rw [ofHistory, applyAll, List.foldl_append]
  rfl

/-! ## One change -/

section

variable (reg : Registry) (c : Change) (r : Representation)

/-- A change decides about the table under an id if it says something about it. -/
theorem table?_apply (id : Text) :
    (reg.apply c).table? r id = (c.tableUnder? r id).getD (reg.table? r id) := by
  cases c with
  | install r' id' table =>
      rw [apply, table?_install, Change.tableUnder?]
      by_cases h : r' = r ∧ id' = id
      · simp [h]
      · have h' : ¬(r = r' ∧ id = id') := fun hand => h ⟨hand.1.symm, hand.2.symm⟩
        rw [if_neg h, if_neg h', Option.getD_none]
  | uninstall r' id' =>
      rw [apply, table?_uninstall, Change.tableUnder?]
      by_cases h : r' = r ∧ id' = id
      · simp [h]
      · have h' : ¬(r = r' ∧ id = id') := fun hand => h ⟨hand.1.symm, hand.2.symm⟩
        rw [if_neg h, if_neg h', Option.getD_none]
  | setMarks r' marks => exact table?_setMarks ..

/-- A change decides about marks if it sets them. -/
theorem marks_apply :
    (reg.apply c).marks r = ((c.marksFor? r).map distinct).getD (reg.marks r) := by
  cases c with
  | install r' id table => exact marks_install ..
  | uninstall r' id => exact marks_uninstall ..
  | setMarks r' marks =>
      rw [apply, marks_setMarks, Change.marksFor?]
      by_cases h : r' = r
      · simp [h]
      · rw [if_neg h, if_neg (Ne.symm h)]
        rfl

/-- A change mentions a representation for the first time or changes nothing about the order. -/
theorem representations_apply :
    (reg.apply c).representations =
      match c.mentioned? with
      | some r =>
        if r ∈ reg.representations then reg.representations else reg.representations ++ [r]
      | none => reg.representations := by
  cases c with
  | install r id table => exact representations_install ..
  | uninstall r id => exact representations_uninstall ..
  | setMarks r marks => exact representations_setMarks ..

end

theorem hasTable_iff {reg : Registry} {r : Representation} {id : Text} :
    reg.hasTable r id = true ↔ ∃ table, reg.table? r id = some table := by
  rw [hasTable, Option.isSome_iff_exists]

/-- The tables that are listed are those that are there. -/
theorem mem_tableIds_iff {reg : Registry} {r : Representation} {id : Text} :
    id ∈ reg.tableIds r ↔ reg.hasTable r id = true := by
  rw [tableIds, OrderedMap.mem_keys_iff]
  rfl

/-- The representations that are listed are those that were mentioned. -/
theorem mem_representations_iff {reg : Registry} {r : Representation} :
    r ∈ reg.representations ↔ reg.hasRepresentation r = true :=
  OrderedMap.contains_iff.symm

/-- There is no table for a representation that was never mentioned. -/
theorem table?_of_not_mentioned {reg : Registry} {r : Representation} {id : Text}
    (h : reg.hasRepresentation r = false) : reg.table? r id = none := by
  have hsection : reg.sections.get? r = none := by
    rwa [hasRepresentation, OrderedMap.contains, Option.isSome_eq_false_iff,
      Option.isNone_iff_eq_none] at h
  rw [table?, sectionOf, hsection]
  rfl

/-- A representation that was mentioned stays so. -/
theorem mem_representations_applyAll {reg : Registry} {r : Representation}
    (h : r ∈ reg.representations) (changes : List Change) :
    r ∈ (reg.applyAll changes).representations := by
  induction changes generalizing reg with
  | nil => exact h
  | cons c changes ih =>
      refine ih ?_
      rw [representations_apply]
      split
      · split
        · exact h
        · exact List.mem_append_left _ h
      · exact h

/-! ## Histories -/

/-- The table that a history leaves under an id: that of the last change there, unless it took the
table away. -/
def tableBehind (changes : List Change) (r : Representation) (id : Text) : Option Table :=
  (latest (Change.tableUnder? r id) changes).join

theorem tableBehind_concat (changes : List Change) (c : Change) (r : Representation) (id : Text) :
    tableBehind (changes ++ [c]) r id =
      (c.tableUnder? r id).getD (tableBehind changes r id) := by
  rw [tableBehind, latest_concat]
  cases c.tableUnder? r id <;> rfl

/-- A registry has the tables that its history leaves. -/
theorem table?_ofHistory (changes : List Change) (r : Representation) (id : Text) :
    (ofHistory changes).table? r id = tableBehind changes r id := by
  induction changes using List.reverseRecOn with
  | nil => rfl
  | append_singleton changes c ih => rw [ofHistory_concat, table?_apply, tableBehind_concat, ih]

/-- There is a table if the last change under its id installed one. -/
theorem tableBehind_eq_some_iff {changes : List Change} {r : Representation} {id : Text}
    {table : Table} :
    tableBehind changes r id = some table ↔
      latest (Change.tableUnder? r id) changes = some (some table) :=
  Option.join_eq_some_iff

/-- A registry has the marks that were set last. -/
theorem marks_ofHistory (changes : List Change) (r : Representation) :
    (ofHistory changes).marks r = ((latest (Change.marksFor? r) changes).map distinct).getD [] := by
  induction changes using List.reverseRecOn with
  | nil => rfl
  | append_singleton changes c ih =>
      rw [ofHistory_concat, marks_apply, latest_concat, ih]
      cases c.marksFor? r <;> rfl

/-- A registry lists the representations in the order in which its history mentions them first. -/
theorem firstOccurrences_representations (changes : List Change) :
    FirstOccurrences (changes.filterMap Change.mentioned?) (ofHistory changes).representations := by
  induction changes using List.reverseRecOn with
  | nil => exact .nil
  | append_singleton changes c ih =>
      rw [ofHistory_concat, representations_apply, List.filterMap_append]
      cases hc : c.mentioned? with
      | none => simpa [hc] using ih
      | some r =>
          simp only [List.filterMap_cons, hc, List.filterMap_nil]
          exact ih.concat r

/-! ## The order of tables -/

/-- The table under an id has been there without a break since the change behind `before`, which
brought it. -/
structure PresentSince (changes : List Change) (r : Representation) (id : Text)
    (before : List Change) : Prop where
  absent : tableBehind before r id = none
  brought : ∃ table after, changes = before ++ .install r id table :: after ∧
    .uninstall r id ∉ after

namespace PresentSince

variable {changes before : List Change} {c : Change} {r : Representation} {id : Text}

/-- What began a presence is in front of the end of the history. -/
theorem length_lt (h : PresentSince changes r id before) : before.length < changes.length := by
  obtain ⟨table, after, rfl, -⟩ := h.brought
  rw [List.length_append, List.length_cons]
  omega

/-- A presence goes on behind one more change, unless that takes the table away. -/
theorem concat (h : PresentSince changes r id before) (hc : c ≠ .uninstall r id) :
    PresentSince (changes ++ [c]) r id before := by
  obtain ⟨table, after, rfl, hafter⟩ := h.brought
  refine ⟨h.absent, table, after ++ [c], by simp, ?_⟩
  rw [List.mem_append, List.mem_singleton]
  rintro (hmem | heq)
  · exact hafter hmem
  · exact hc heq.symm

/-- A presence behind one more change went on through it, or began with it. -/
theorem of_concat (h : PresentSince (changes ++ [c]) r id before) :
    (c ≠ .uninstall r id ∧ PresentSince changes r id before) ∨
      before = changes ∧ tableBehind changes r id = none := by
  obtain ⟨table, after, heq, hafter⟩ := h.brought
  rcases List.eq_nil_or_concat after with rfl | ⟨after, c', rfl⟩
  · obtain ⟨rfl, -⟩ := List.append_inj' heq rfl
    exact .inr ⟨rfl, h.absent⟩
  · rw [List.concat_eq_append, ← List.cons_append, ← List.append_assoc] at heq
    obtain ⟨hchanges, hc⟩ := List.append_inj' heq rfl
    cases hc
    rw [List.concat_eq_append, List.mem_append, List.mem_singleton, not_or] at hafter
    exact .inl ⟨Ne.symm hafter.2, h.absent, table, after, hchanges, hafter.1⟩

/-- The presence of a table that was there already began before one more change. -/
theorem of_concat_of_ne (h : PresentSince (changes ++ [c]) r id before)
    (hpresent : tableBehind changes r id ≠ none) : PresentSince changes r id before := by
  rcases h.of_concat with ⟨-, h⟩ | ⟨-, habsent⟩
  · exact h
  · exact absurd habsent hpresent

end PresentSince

/-- What a change that takes nothing away under an id says about it, if anything, is that there is a
table. -/
theorem Change.tableUnder?_of_ne {c : Change} {r : Representation} {id : Text}
    (hc : c ≠ .uninstall r id) :
    c.tableUnder? r id = none ∨
      ∃ table, c = .install r id table ∧ c.tableUnder? r id = some (some table) := by
  cases c with
  | install r' id' table =>
      by_cases h : r' = r ∧ id' = id
      · obtain ⟨rfl, rfl⟩ := h
        exact .inr ⟨table, rfl, if_pos ⟨rfl, rfl⟩⟩
      · exact .inl (if_neg h)
  | uninstall r' id' =>
      refine .inl (if_neg ?_)
      rintro ⟨rfl, rfl⟩
      exact hc rfl
  | setMarks r' marks => exact .inl rfl

theorem Change.tableUnder?_uninstall (r : Representation) (id : Text) :
    (Change.uninstall r id).tableUnder? r id = some none := if_pos ⟨rfl, rfl⟩

/-- There is a table under an id if its presence has begun and was not broken. -/
theorem exists_presentSince_iff {changes : List Change} {r : Representation} {id : Text} :
    (∃ before, PresentSince changes r id before) ↔ tableBehind changes r id ≠ none := by
  induction changes using List.reverseRecOn with
  | nil =>
      constructor
      · rintro ⟨before, -, table, after, heq, -⟩
        exact absurd heq.symm (List.append_ne_nil_of_right_ne_nil _ (List.cons_ne_nil _ _))
      · intro h
        exact absurd rfl h
  | append_singleton changes c ih =>
      rw [tableBehind_concat]
      by_cases hc : c = .uninstall r id
      · subst hc
        rw [Change.tableUnder?_uninstall, Option.getD_some]
        constructor
        · rintro ⟨before, h⟩
          rcases h.of_concat with ⟨hne, -⟩ | ⟨rfl, -⟩
          · exact absurd rfl hne
          -- the change that would have begun the presence removes the table
          · obtain ⟨table, after, heq, -⟩ := h.brought
            cases List.append_cancel_left heq
        · intro h
          exact absurd rfl h
      · rcases Change.tableUnder?_of_ne hc with hnone | ⟨table, rfl, hsome⟩
        · rw [hnone, Option.getD_none, ← ih]
          constructor
          · rintro ⟨before, h⟩
            rcases h.of_concat with ⟨-, h⟩ | ⟨rfl, -⟩
            · exact ⟨before, h⟩
            · obtain ⟨table, after, heq, -⟩ := h.brought
              cases List.append_cancel_left heq
              simp [Change.tableUnder?] at hnone
          · rintro ⟨before, h⟩
            exact ⟨before, h.concat hc⟩
        · rw [hsome, Option.getD_some]
          refine ⟨fun _ => Option.some_ne_none table, fun _ => ?_⟩
          by_cases habsent : tableBehind changes r id = none
          · exact ⟨changes, habsent, table, [], rfl, List.not_mem_nil⟩
          · obtain ⟨before, h⟩ := ih.mpr habsent
            exact ⟨before, h.concat hc⟩

/-- The ids of the tables of a representation come in the order in which the presence of their
tables began. -/
def OrderedByPresence (changes : List Change) (r : Representation) (ids : List Text) : Prop :=
  ids.Pairwise fun id id' => ∀ before before', PresentSince changes r id before →
    PresentSince changes r id' before' → before.length < before'.length

/-- Tables that were there before one more change keep their order. -/
theorem OrderedByPresence.concat {changes : List Change} {r : Representation} {ids : List Text}
    (h : OrderedByPresence changes r ids) (hids : ∀ id ∈ ids, tableBehind changes r id ≠ none)
    (c : Change) : OrderedByPresence (changes ++ [c]) r ids := by
  refine List.Pairwise.imp_of_mem ?_ h
  intro id id' hid hid' hlt before before' hbefore hbefore'
  exact hlt before before' (hbefore.of_concat_of_ne (hids id hid))
    (hbefore'.of_concat_of_ne (hids id' hid'))

/-- Tables are listed in the order in which their presence began. -/
theorem tableIds_orderedByPresence (changes : List Change) (r : Representation) :
    OrderedByPresence changes r ((ofHistory changes).tableIds r) := by
  induction changes using List.reverseRecOn with
  | nil => exact .nil
  | append_singleton changes c ih =>
      have hpresent : ∀ id ∈ (ofHistory changes).tableIds r, tableBehind changes r id ≠ none := by
        intro id hid
        rw [mem_tableIds_iff, hasTable_iff] at hid
        obtain ⟨table, htable⟩ := hid
        rw [← table?_ofHistory, htable]
        exact Option.some_ne_none table
      have hold := ih.concat hpresent c
      rw [ofHistory_concat]
      cases c with
      | install r' id table =>
          rw [apply, tableIds_install]
          split
          · rename_i hnew
            obtain ⟨rfl, hid⟩ := hnew
            refine List.pairwise_append.mpr ⟨hold, List.pairwise_singleton .., ?_⟩
            intro id₁ hid₁ id₂ hid₂ before before' hbefore hbefore'
            rw [List.mem_singleton] at hid₂
            subst hid₂
            have hlt := (hbefore.of_concat_of_ne (hpresent id₁ hid₁)).length_lt
            -- nothing was under the new id, so that its presence begins with the change
            rcases hbefore'.of_concat with ⟨-, hbefore'⟩ | ⟨rfl, -⟩
            · have habsent := exists_presentSince_iff.mp ⟨before', hbefore'⟩
              rw [← table?_ofHistory] at habsent
              exact absurd (mem_tableIds_iff.mpr (Option.isSome_iff_ne_none.mpr habsent)) hid
            · exact hlt
          · exact hold
      | uninstall r' id =>
          rw [apply, tableIds_uninstall]
          split
          · rename_i hr
            subst hr
            exact List.Pairwise.sublist List.filter_sublist hold
          · exact hold
      | setMarks r' marks =>
          rw [apply, tableIds_setMarks]
          exact hold

/-! ## Answers -/

/-- Two registries give the same answers about a representation. -/
structure SameAnswers (r : Representation) (reg reg' : Registry) : Prop where
  hasRepresentation : reg.hasRepresentation r = reg'.hasRepresentation r
  tableIds : reg.tableIds r = reg'.tableIds r
  table : ∀ id, reg.table r id = reg'.table r id
  code : ∀ id key, reg.code r id key = reg'.code r id key
  marks : reg.marks r = reg'.marks r

/-- A registry that has the same section for a representation gives the same answers about it. -/
theorem SameAnswers.of_sections {r : Representation} {reg reg' : Registry}
    (h : reg.sections.get? r = reg'.sections.get? r) : SameAnswers r reg reg' := by
  have hsection : reg.sectionOf r = reg'.sectionOf r := by rw [sectionOf, sectionOf, h]
  have hmentioned : reg.hasRepresentation r = reg'.hasRepresentation r := by
    rw [Registry.hasRepresentation, Registry.hasRepresentation, OrderedMap.contains,
      OrderedMap.contains, h]
  have htable : ∀ id, reg.table r id = reg'.table r id := by
    intro id
    rw [Registry.table, Registry.table, table?, table?, hsection, hmentioned]
  refine ⟨hmentioned, ?_, htable, ?_, ?_⟩
  · rw [Registry.tableIds, Registry.tableIds, hsection]
  · intro id key
    rw [Registry.code, Registry.code, htable]
  · rw [Registry.marks, Registry.marks, hsection]

/-- A change says nothing about another representation. -/
theorem sameAnswers_apply (reg : Registry) (c : Change) {r : Representation}
    (h : r ≠ c.representation) : SameAnswers r (reg.apply c) reg := by
  refine .of_sections ?_
  cases c with
  | install r' id table => exact (OrderedMap.get?_insert ..).trans (if_neg h)
  | uninstall r' id =>
      simp only [apply, uninstall]
      split
      · exact (OrderedMap.get?_insert ..).trans (if_neg h)
      · rfl
  | setMarks r' marks => exact (OrderedMap.get?_insert ..).trans (if_neg h)

section

variable {reg : Registry} {r : Representation} {id : Text}

theorem table_of_table? {table : Table} (h : reg.table? r id = some table) :
    reg.table r id = .ok table := by
  rw [Registry.table, h]

/-- What is asked of a table that is there is answered from its mapping. -/
theorem code_of_table? {table : Table} (h : reg.table? r id = some table) (key : Text) :
    reg.code r id key =
      match table.mapping.get? key with
      | some code => .ok code
      | none => .error (.missingKey r id key) := by
  rw [Registry.code, table_of_table? h]
  rfl

/-- What is asked of a table that is not there is refused, and the refusal says whether the
representation was ever mentioned. -/
theorem refused_of_table?_eq_none (h : reg.table? r id = none) :
    reg.table r id = .error (.missingTable r id (reg.hasRepresentation r)) ∧
      ∀ key, reg.code r id key = .error (.missingTable r id (reg.hasRepresentation r)) := by
  have htable : reg.table r id = .error (.missingTable r id (reg.hasRepresentation r)) := by
    rw [Registry.table, h]
  refine ⟨htable, ?_⟩
  intro key
  rw [Registry.code, htable]
  rfl

end

/-- A registry answers as a history tells. -/
structure Records (changes : List Change) (reg : Registry) : Prop where
  /-- There is a table if the last change under its id installed one. -/
  hasTable : ∀ r id, reg.hasTable r id = true ↔
    ∃ table, latest (Change.tableUnder? r id) changes = some (some table)
  /-- It is the one that was installed. -/
  table : ∀ r id table, latest (Change.tableUnder? r id) changes = some (some table) →
    reg.table r id = .ok table
  /-- Its keys come once, in the order in which they were first given, and each has the code that
  was given last. -/
  mapping : ∀ r id table entries, latest (Change.tableUnder? r id) changes = some (some table) →
    table.mapping = .ofList entries →
      FirstOccurrences (entries.map Prod.fst) table.mapping.keys ∧
      ∀ key, reg.code r id key =
        match latest (OrderedMap.valueIn key) entries with
        | some code => .ok code
        | none => .error (.missingKey r id key)
  /-- Where there is no table, the refusal says whether the representation was ever mentioned. -/
  missing : ∀ r id, (∀ table, latest (Change.tableUnder? r id) changes ≠ some (some table)) →
    reg.table r id = .error (.missingTable r id (reg.hasRepresentation r)) ∧
    ∀ key, reg.code r id key = .error (.missingTable r id (reg.hasRepresentation r))
  /-- The tables are listed once, in the order of the changes that brought them. -/
  tableIds : ∀ r, (reg.tableIds r).Nodup ∧
    (∀ id, id ∈ reg.tableIds r ↔ ∃ before, PresentSince changes r id before) ∧
    OrderedByPresence changes r (reg.tableIds r)
  /-- A representation was mentioned if a change mentions it. -/
  hasRepresentation : ∀ r, reg.hasRepresentation r = true ↔ ∃ c ∈ changes, c.mentioned? = some r
  /-- The representations are listed in the order in which they were first mentioned. -/
  representations : FirstOccurrences (changes.filterMap Change.mentioned?) reg.representations
  /-- The marks are those that were set last, each once, in the order in which they were given. -/
  marks : ∀ r, FirstOccurrences ((latest (Change.marksFor? r) changes).getD []) (reg.marks r)
  /-- Removing a table tells whether there was one. -/
  remove : ∀ r id, (reg.remove r id).2 = reg.apply (.uninstall r id) ∧
    ((reg.remove r id).1 = true ↔
      ∃ table, latest (Change.tableUnder? r id) changes = some (some table))
  /-- No change gives another answer about a representation that it does not change. -/
  others : ∀ c r, r ≠ c.representation → SameAnswers r (reg.apply c) reg
  /-- No change gives another answer about a table or about marks that it says nothing about. -/
  kept : ∀ c r,
    (∀ id, c.tableUnder? r id = none → (reg.apply c).table? r id = reg.table? r id) ∧
    (c.marksFor? r = none → (reg.apply c).marks r = reg.marks r)

/-- A registry answers as the history of its changes tells. -/
theorem ofHistory_records (changes : List Change) : Records changes (ofHistory changes) := by
  have htable : ∀ {r id table}, latest (Change.tableUnder? r id) changes = some (some table) →
      (ofHistory changes).table? r id = some table := by
    intro r id table h
    rw [table?_ofHistory, tableBehind_eq_some_iff, h]
  have hhas : ∀ r id, (ofHistory changes).hasTable r id = true ↔
      ∃ table, latest (Change.tableUnder? r id) changes = some (some table) := by
    intro r id
    simp only [hasTable_iff, table?_ofHistory, tableBehind_eq_some_iff]
  refine ⟨hhas, ?_, ?_, ?_, ?_, ?_, firstOccurrences_representations changes, ?_, ?_, ?_, ?_⟩
  · intro r id table h
    exact table_of_table? (htable h)
  · intro r id table entries h hentries
    rw [hentries]
    refine ⟨OrderedMap.firstOccurrences_keys_ofList entries, ?_⟩
    intro key
    rw [code_of_table? (htable h), hentries, OrderedMap.get?_ofList]
  · intro r id h
    refine refused_of_table?_eq_none (Option.eq_none_iff_forall_ne_some.mpr ?_)
    intro table htable
    rw [table?_ofHistory, tableBehind_eq_some_iff] at htable
    exact h table htable
  · intro r
    refine ⟨OrderedMap.nodup_keys _, ?_, tableIds_orderedByPresence changes r⟩
    intro id
    rw [mem_tableIds_iff, exists_presentSince_iff, ← table?_ofHistory]
    exact Option.isSome_iff_ne_none
  · intro r
    rw [← mem_representations_iff, (firstOccurrences_representations changes).mem_iff,
      List.mem_filterMap]
  · intro r
    rw [marks_ofHistory]
    cases latest (Change.marksFor? r) changes with
    | none => exact .nil
    | some given => exact firstOccurrences_distinct given
  · intro r id
    rw [remove_eq]
    exact ⟨rfl, hhas r id⟩
  · intro c r h
    exact sameAnswers_apply (ofHistory changes) c h
  · intro c r
    refine ⟨?_, ?_⟩
    · intro id h
      rw [table?_apply, h, Option.getD_none]
    · intro h
      rw [marks_apply, h]
      rfl

/-- A table that was taken away and installed again is listed behind the others. -/
example :
    (ofHistory [.install .html "a" ⟨[], {}⟩, .install .html "b" ⟨[], {}⟩, .uninstall .html "a",
      .install .html "b" ⟨[], {}⟩, .install .html "a" ⟨[], {}⟩]).tableIds .html = ["b", "a"] := by
  decide

end Sigil.Registry
