import Mathlib.Data.List.Basic
import Mathlib.Data.List.Induction
import Sigil.Registry

/-!
# Last words and first occurrences

What a sequence of entries says last about a matter (`latest`), and the order in which it first
names its members (`FirstOccurrences`). A map made of a list of entries has for each key what the
list says last, and its keys are in the order in which the list first names them. Both notions are
taken through a sequence from the left, one entry at a time (`latest_concat`,
`FirstOccurrences.concat`).
-/

namespace Sigil

variable {α : Type u} {β : Type v}

/-! ## Last words -/

/-- What the last entry that says anything says. -/
def latest (f : α → Option β) (l : List α) : Option β := (l.filterMap f).getLast?

/-- Another entry has the last word if it says anything. -/
theorem latest_concat (f : α → Option β) (l : List α) (a : α) :
    latest f (l ++ [a]) = (f a).or (latest f l) := by
  rw [latest, List.filterMap_append, List.getLast?_append]
  cases h : f a <;> simp [h, latest]

/-! ## First occurrences -/

section

variable [DecidableEq α]

/-- The members of a list, each once, in the order in which the list first names them. -/
structure FirstOccurrences (given members : List α) : Prop where
  mem_iff : ∀ a, a ∈ members ↔ a ∈ given
  ascending : members.Pairwise fun a b => given.idxOf a < given.idxOf b

namespace FirstOccurrences

variable {given members : List α}

theorem nil : FirstOccurrences ([] : List α) [] := ⟨fun _ => Iff.rfl, .nil⟩

/-- Another name at the end of the list is a new member, or was named before. -/
theorem concat (h : FirstOccurrences given members) (a : α) :
    FirstOccurrences (given ++ [a]) (if a ∈ members then members else members ++ [a]) := by
  have hold : ∀ b ∈ members, (given ++ [a]).idxOf b = given.idxOf b := by
    intro b hb
    exact List.idxOf_append_of_mem ((h.mem_iff b).mp hb)
  have hascending :
      members.Pairwise fun b c => (given ++ [a]).idxOf b < (given ++ [a]).idxOf c := by
    refine h.ascending.imp_of_mem ?_
    intro b c hb hc hlt
    rw [hold b hb, hold c hc]
    exact hlt
  by_cases ha : a ∈ members
  · rw [if_pos ha]
    refine ⟨?_, hascending⟩
    intro b
    rw [List.mem_append, List.mem_singleton, h.mem_iff]
    constructor
    · exact .inl
    · rintro (hb | rfl)
      · exact hb
      · exact (h.mem_iff b).mp ha
  · rw [if_neg ha]
    refine ⟨?_, List.pairwise_append.mpr ⟨hascending, List.pairwise_singleton .., ?_⟩⟩
    · intro b
      rw [List.mem_append, List.mem_append, h.mem_iff]
    -- every old member was named in front of the new one
    · intro b hb c hc
      rw [List.mem_singleton] at hc
      subst hc
      have hgiven : c ∉ given := fun hc => ha ((h.mem_iff c).mpr hc)
      rw [hold b hb, List.idxOf_append_of_notMem hgiven]
      exact Nat.lt_add_right _ (List.idxOf_lt_length_of_mem ((h.mem_iff b).mp hb))

end FirstOccurrences

/-- The distinct members of a list are in the order of their first occurrences. -/
theorem firstOccurrences_distinct (l : List α) : FirstOccurrences l (distinct l) := by
  refine ⟨fun a => mem_distinct, ?_⟩
  induction l with
  | nil => exact .nil
  | cons a rest ih =>
      have hne : ∀ b, b ∈ (distinct rest).filter (· ≠ a) → a ≠ b := by
        intro b hb
        exact fun heq => of_decide_eq_true (List.mem_filter.mp hb).2 heq.symm
      rw [distinct, List.pairwise_cons]
      refine ⟨?_, (ih.sublist List.filter_sublist).imp_of_mem ?_⟩
      · intro b hb
        rw [List.idxOf_cons_self, List.idxOf_cons_ne _ (hne b hb)]
        exact Nat.succ_pos _
      · intro b c hb hc hlt
        rw [List.idxOf_cons_ne _ (hne b hb), List.idxOf_cons_ne _ (hne c hc)]
        exact Nat.succ_lt_succ hlt

end

/-! ## Maps made of lists -/

namespace OrderedMap

variable {κ : Type u} [DecidableEq κ] {γ : Type v}

/-- What an entry says about a key. -/
def valueIn (k : κ) (entry : κ × γ) : Option γ := if entry.1 = k then some entry.2 else none

theorem ofList_concat (entries : List (κ × γ)) (k : κ) (a : γ) :
    ofList (entries ++ [(k, a)]) = (ofList entries).insert k a := by
  rw [ofList, List.foldl_append]
  rfl

/-- A map made of a list has under each key what the list says last about it. -/
theorem get?_ofList (entries : List (κ × γ)) (k : κ) :
    (ofList entries).get? k = latest (valueIn k) entries := by
  induction entries using List.reverseRecOn with
  | nil => rfl
  | append_singleton entries entry ih =>
      obtain ⟨k', a⟩ := entry
      rw [ofList_concat, get?_insert, latest_concat, ih]
      by_cases hk : k = k'
      · simp [valueIn, hk]
      · simp [valueIn, hk, Ne.symm hk]

/-- The keys of a map made of a list are in the order in which the list first names them. -/
theorem firstOccurrences_keys_ofList (entries : List (κ × γ)) :
    FirstOccurrences (entries.map Prod.fst) (ofList entries).keys := by
  induction entries using List.reverseRecOn with
  | nil => exact .nil
  | append_singleton entries entry ih =>
      obtain ⟨k, a⟩ := entry
      rw [ofList_concat, keys_insert, List.map_append]
      exact ih.concat k

end OrderedMap

end Sigil
