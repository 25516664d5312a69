/-!
# Maps that remember insertion order

An `OrderedMap` is a list of entries with distinct keys. Inserting under a key that is present
replaces the value and keeps the entry's place; a new key goes to the end. Erasing a key and
inserting it again therefore moves it to the end.
-/

namespace Sigil

/-- A finite map whose entries are kept in the order in which their keys arrived. -/
structure OrderedMap (κ : Type u) (α : Type v) where
  entries : List (κ × α)
  nodup : (entries.map Prod.fst).Nodup

namespace OrderedMap

variable {κ : Type u} {α : Type v}

/-- The map without entries. -/
def empty : OrderedMap κ α := ⟨[], List.nodup_nil⟩

instance : EmptyCollection (OrderedMap κ α) := ⟨empty⟩
instance : Inhabited (OrderedMap κ α) := ⟨empty⟩

/-- The keys in insertion order. -/
def keys (m : OrderedMap κ α) : List κ := m.entries.map Prod.fst

theorem nodup_keys (m : OrderedMap κ α) : m.keys.Nodup := m.nodup

variable [DecidableEq κ]

/-- The value of the first entry with the key. -/
def lookupEntry (k : κ) : List (κ × α) → Option α
  | [] => none
  | (k', a) :: rest => if k' = k then some a else lookupEntry k rest

/-- The value under a key. -/
def get? (m : OrderedMap κ α) (k : κ) : Option α := lookupEntry k m.entries

/-- The map has an entry under the key. -/
def contains (m : OrderedMap κ α) (k : κ) : Bool := (m.get? k).isSome

/-- Entries with the value under `k` replaced, or with a new entry at the end. -/
def insertEntry (k : κ) (a : α) : List (κ × α) → List (κ × α)
  | [] => [(k, a)]
  | (k', a') :: rest => if k' = k then (k, a) :: rest else (k', a') :: insertEntry k a rest

theorem mem_keys_insertEntry {k k' : κ} {a : α} {entries : List (κ × α)} :
    k' ∈ (insertEntry k a entries).map Prod.fst ↔ k' = k ∨ k' ∈ entries.map Prod.fst := by
  induction entries with
  | nil => simp [insertEntry]
  | cons e rest ih =>
    obtain ⟨k₁, a₁⟩ := e
    by_cases h : k₁ = k
    · simp [insertEntry, h]
    · simp only [insertEntry, if_neg h, List.map_cons, List.mem_cons, ih]
      exact or_left_comm

theorem nodup_insertEntry (k : κ) (a : α) {entries : List (κ × α)}
    (h : (entries.map Prod.fst).Nodup) : ((insertEntry k a entries).map Prod.fst).Nodup := by
  induction entries with
  | nil => simp [insertEntry]
  | cons e rest ih =>
    obtain ⟨k₁, a₁⟩ := e
    rw [List.map_cons, List.nodup_cons] at h
    by_cases hk : k₁ = k
    · subst hk; simpa [insertEntry] using h
    · simp only [insertEntry, if_neg hk, List.map_cons, List.nodup_cons, mem_keys_insertEntry,
        not_or]
      exact ⟨⟨hk, h.1⟩, ih h.2⟩

/-- Put a value under a key. -/
def insert (m : OrderedMap κ α) (k : κ) (a : α) : OrderedMap κ α :=
  ⟨insertEntry k a m.entries, nodup_insertEntry k a m.nodup⟩

/-- Remove a key. -/
def erase (m : OrderedMap κ α) (k : κ) : OrderedMap κ α :=
  ⟨m.entries.filter (·.1 ≠ k), m.nodup.sublist (List.filter_sublist.map Prod.fst)⟩

/-- Insert the entries of a list one after another. -/
def ofList (entries : List (κ × α)) : OrderedMap κ α :=
  entries.foldl (fun m (k, a) => m.insert k a) empty

/-! ## Lookups and keys after each operation -/

omit [DecidableEq κ] in
@[ext]
theorem ext {m m' : OrderedMap κ α} (h : m.entries = m'.entries) : m = m' := by
  cases m; cases m'; simpa using h

theorem lookupEntry_insertEntry (k k' : κ) (a : α) (entries : List (κ × α)) :
    lookupEntry k' (insertEntry k a entries) =
      if k' = k then some a else lookupEntry k' entries := by
  induction entries with
  | nil => simp [insertEntry, lookupEntry, eq_comm]
  | cons e rest ih =>
    obtain ⟨k₁, a₁⟩ := e
    by_cases h₁ : k₁ = k
    · subst h₁
      by_cases h : k₁ = k'
      · simp [insertEntry, lookupEntry, h]
      · simp [insertEntry, lookupEntry, h, Ne.symm h]
    · by_cases h : k₁ = k'
      · subst h; simp [insertEntry, lookupEntry, h₁]
      · simp [insertEntry, lookupEntry, h₁, h, ih]

theorem keys_insertEntry (k : κ) (a : α) (entries : List (κ × α)) :
    (insertEntry k a entries).map Prod.fst =
      if k ∈ entries.map Prod.fst then entries.map Prod.fst else entries.map Prod.fst ++ [k] := by
  induction entries with
  | nil => simp [insertEntry]
  | cons e rest ih =>
    obtain ⟨k₁, a₁⟩ := e
    by_cases h₁ : k₁ = k
    · simp [insertEntry, h₁]
    · have hne : k ≠ k₁ := fun h => h₁ h.symm
      by_cases h : k ∈ rest.map Prod.fst <;> simp_all [insertEntry]

@[simp]
theorem get?_empty (k : κ) : (empty : OrderedMap κ α).get? k = none := rfl

omit [DecidableEq κ] in
@[simp]
theorem keys_empty : (empty : OrderedMap κ α).keys = [] := rfl

/-- Inserting changes the value under its key alone. -/
theorem get?_insert (m : OrderedMap κ α) (k k' : κ) (a : α) :
    (m.insert k a).get? k' = if k' = k then some a else m.get? k' :=
  lookupEntry_insertEntry k k' a m.entries

@[simp]
theorem get?_insert_self (m : OrderedMap κ α) (k : κ) (a : α) :
    (m.insert k a).get? k = some a := by simp [get?_insert]

/-- A key keeps its place when its value is replaced, and a new key goes to the end. -/
theorem keys_insert (m : OrderedMap κ α) (k : κ) (a : α) :
    (m.insert k a).keys = if k ∈ m.keys then m.keys else m.keys ++ [k] :=
  keys_insertEntry k a m.entries

theorem lookupEntry_filter_ne (k k' : κ) (entries : List (κ × α)) :
    lookupEntry k' (entries.filter (·.1 ≠ k)) =
      if k' = k then none else lookupEntry k' entries := by
  induction entries with
  | nil => simp [lookupEntry]
  | cons e rest ih =>
    obtain ⟨k₁, a₁⟩ := e
    by_cases h₁ : k₁ = k
    · subst h₁
      by_cases h : k₁ = k' <;> simp_all [lookupEntry, eq_comm]
    · by_cases h : k₁ = k' <;> simp_all [lookupEntry]

/-- Erasing removes the value under its key alone. -/
theorem get?_erase (m : OrderedMap κ α) (k k' : κ) :
    (m.erase k).get? k' = if k' = k then none else m.get? k' :=
  lookupEntry_filter_ne k k' m.entries

/-- Erasing keeps the order of the other keys. -/
theorem keys_erase (m : OrderedMap κ α) (k : κ) : (m.erase k).keys = m.keys.filter (· ≠ k) := by
  simp only [keys, erase, List.filter_map]
  rfl

theorem filter_ne_insertEntry (k k' : κ) (a : α) (entries : List (κ × α)) :
    (insertEntry k' a entries).filter (·.1 ≠ k) =
      if k' = k then entries.filter (·.1 ≠ k)
      else insertEntry k' a (entries.filter (·.1 ≠ k)) := by
  induction entries with
  | nil => by_cases h : k' = k <;> simp [insertEntry, h]
  | cons e rest ih =>
    obtain ⟨k₁, a₁⟩ := e
    by_cases h₁ : k₁ = k'
    · subst h₁
      by_cases h : k₁ = k <;> simp [insertEntry, h]
    · by_cases h : k₁ = k <;> by_cases h' : k' = k <;> simp_all [insertEntry]

/-- A key that is erased takes with it what was inserted under it, and nothing else. -/
theorem erase_insert (m : OrderedMap κ α) (k k' : κ) (a : α) :
    (m.insert k' a).erase k = if k' = k then m.erase k else (m.erase k).insert k' a := by
  have hentries := filter_ne_insertEntry k k' a m.entries
  split
  · rename_i h
    exact OrderedMap.ext (hentries.trans (if_pos h))
  · rename_i h
    exact OrderedMap.ext (hentries.trans (if_neg h))

/-- Maps that agree off a key have the same values under all other keys. -/
theorem get?_of_erase_eq {m m' : OrderedMap κ α} {k k' : κ} (h : m.erase k = m'.erase k)
    (hk : k' ≠ k) : m.get? k' = m'.get? k' := by
  have hget := congrArg (·.get? k') h
  simpa [get?_erase, hk] using hget

/-- Maps that agree off a key do so behind the same insertion. -/
theorem erase_insert_congr {m m' : OrderedMap κ α} {k : κ} (h : m.erase k = m'.erase k) (k' : κ)
    (a : α) : (m.insert k' a).erase k = (m'.insert k' a).erase k := by
  rw [erase_insert, erase_insert, h]

/-- The entries are what lookups find. -/
theorem mem_entries_iff {m : OrderedMap κ α} {k : κ} {a : α} :
    (k, a) ∈ m.entries ↔ m.get? k = some a := by
  obtain ⟨entries, nodup⟩ := m
  simp only [get?]
  induction entries with
  | nil => simp [lookupEntry]
  | cons e rest ih =>
    obtain ⟨k₁, a₁⟩ := e
    rw [List.map_cons, List.nodup_cons] at nodup
    have hmem : (k₁, a) ∈ rest → k₁ ∈ rest.map Prod.fst := fun h => List.mem_map.mpr ⟨_, h, rfl⟩
    by_cases h : k = k₁
    · subst h
      have hnot : (k, a) ∉ rest := fun h => nodup.1 (hmem h)
      simp [lookupEntry, hnot, eq_comm]
    · have hne : k₁ ≠ k := fun h' => h h'.symm
      simp [lookupEntry, h, hne, ih nodup.2]

/-- The keys are those under which lookups find something. -/
theorem mem_keys_iff {m : OrderedMap κ α} {k : κ} : k ∈ m.keys ↔ (m.get? k).isSome := by
  simp only [keys, List.mem_map, Prod.exists, exists_and_right, exists_eq_right, mem_entries_iff,
    Option.isSome_iff_exists]

theorem contains_iff {m : OrderedMap κ α} {k : κ} : m.contains k = true ↔ k ∈ m.keys := by
  rw [mem_keys_iff]; rfl

theorem mem_entries_insert {m : OrderedMap κ α} {k : κ} {a : α} {entry : κ × α}
    (h : entry ∈ (m.insert k a).entries) : entry = (k, a) ∨ entry ∈ m.entries := by
  rw [mem_entries_iff, get?_insert] at h
  split at h
  · rename_i hk
    cases h
    exact .inl (Prod.ext hk rfl)
  · exact .inr (mem_entries_iff.mpr h)

/-- The entries of a list with distinct keys are those of its map. -/
theorem get?_ofList_of_mem {entries : List (κ × α)} (hkeys : (entries.map Prod.fst).Nodup) {k : κ}
    {a : α} (h : (k, a) ∈ entries) : (ofList entries).get? k = some a := by
  have hfold : ∀ (entries : List (κ × α)) (m : OrderedMap κ α),
      (entries.map Prod.fst).Nodup → (k, a) ∈ entries ∨ k ∉ entries.map Prod.fst ∧
        m.get? k = some a →
      (entries.foldl (fun m (k, a) => m.insert k a) m).get? k = some a := by
    intro entries
    induction entries with
    | nil => exact fun m _ h => (h.resolve_left List.not_mem_nil).2
    | cons first rest ih =>
      intro m hkeys h
      rw [List.map_cons, List.nodup_cons] at hkeys
      refine ih _ hkeys.2 ?_
      rcases h with h | ⟨hk, hm⟩
      · rcases List.mem_cons.mp h with rfl | h
        · exact .inr ⟨hkeys.1, get?_insert_self m k a⟩
        · exact .inl h
      · rw [List.map_cons, List.mem_cons, not_or] at hk
        refine .inr ⟨hk.2, ?_⟩
        rw [get?_insert, if_neg hk.1, hm]
  exact hfold entries empty hkeys (.inl h)

/-- The entries of a map are among those it was made of. -/
theorem mem_of_mem_entries_ofList {entries : List (κ × α)} {entry : κ × α}
    (h : entry ∈ (ofList entries).entries) : entry ∈ entries := by
  have hfold : ∀ (entries : List (κ × α)) (m : OrderedMap κ α),
      entry ∈ (entries.foldl (fun m (k, a) => m.insert k a) m).entries →
        entry ∈ entries ∨ entry ∈ m.entries := by
    intro entries
    induction entries with
    | nil => exact fun m h => .inr h
    | cons first rest ih =>
      intro m h
      rcases ih _ h with hrest | hm
      · exact .inl (List.mem_cons_of_mem _ hrest)
      rcases mem_entries_insert hm with rfl | hm
      · exact .inl (List.mem_cons_self ..)
      · exact .inr hm
  exact (hfold entries empty h).resolve_right List.not_mem_nil

/-- A map that is made of the keys of another has the value that was made for each key. -/
theorem get?_ofList_keys_eq_some_iff {β : Type w} (m : OrderedMap κ α) (f : κ → β) {k : κ} {b : β} :
    (ofList (m.keys.map fun k => (k, f k))).get? k = some b ↔ k ∈ m.keys ∧ f k = b := by
  constructor
  · intro h
    obtain ⟨k', hk', heq⟩ := List.mem_map.mp (mem_of_mem_entries_ofList (mem_entries_iff.mpr h))
    cases heq
    exact ⟨hk', rfl⟩
  · rintro ⟨hk, rfl⟩
    have hkeys : (m.keys.map fun k => (k, f k)).map Prod.fst = m.keys := by
      rw [List.map_map]
      exact List.map_id m.keys
    refine get?_ofList_of_mem ?_ (List.mem_map.mpr ⟨k, hk, rfl⟩)
    rw [hkeys]
    exact m.nodup_keys

/-- Such a map has the same keys. -/
theorem mem_keys_ofList_keys_iff {β : Type w} (m : OrderedMap κ α) (f : κ → β) {k : κ} :
    k ∈ (ofList (m.keys.map fun k => (k, f k))).keys ↔ k ∈ m.keys := by
  rw [mem_keys_iff, Option.isSome_iff_exists]
  simp [get?_ofList_keys_eq_some_iff]

end OrderedMap

end Sigil
