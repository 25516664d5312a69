import Mathlib.Data.List.TakeWhile
import Sigil.Text.Blank

/-!
# What is to be seen of a text

A text is empty, blank or visible (`Text.visibility`). Putting texts together joins what is to be
seen of them (`Text.visibility_append`). Trimming keeps a visible text visible
(`Text.visibility_trim`), and leaves nothing of any other (`Text.trim_eq_nil`).
-/

namespace Sigil

/-- How much is to be seen of a text. -/
inductive Visibility where
  | empty
  | blank
  | visible
  deriving DecidableEq, Repr

/-- What is to be seen of two texts one after the other. -/
def Visibility.join : Visibility → Visibility → Visibility
  | empty, v => v
  | v, empty => v
  | blank, blank => blank
  | _, _ => visible

namespace Text

open CodeUnit (isBlank)

/-- Nothing, blanks alone, or more than that. -/
def visibility (t : Text) : Visibility :=
  if t = [] then .empty else if t.all isBlank then .blank else .visible

theorem visibility_eq_empty_iff {t : Text} : t.visibility = .empty ↔ t = [] := by
  unfold visibility
  split
  · simp [*]
  · split <;> simp [*]

/-- A text is visible if one of its units is. -/
theorem visibility_eq_visible_iff {t : Text} :
    t.visibility = .visible ↔ ∃ u ∈ t, u.isBlank = false := by
  unfold visibility
  split
  · simp [*]
  · split <;> simp_all

/-- What is to be seen of a composed text. -/
theorem visibility_append (s t : Text) :
    (s ++ t).visibility = s.visibility.join t.visibility := by
  unfold visibility
  by_cases hs : s = []
  · simp only [hs, List.nil_append, if_true]
    rfl
  by_cases ht : t = []
  · simp only [ht, List.append_nil, if_true, if_neg hs]
    split <;> rfl
  rw [if_neg (List.append_ne_nil_of_left_ne_nil hs t), if_neg hs, if_neg ht, List.all_append]
  cases s.all isBlank <;> cases t.all isBlank <;> rfl

/-- A text with a visible part is visible. -/
theorem visibility_append_left {s : Text} (h : s.visibility = .visible) (t : Text) :
    (s ++ t).visibility = .visible := by
  rw [visibility_append, h]
  cases t.visibility <;> rfl

theorem visibility_append_right (s : Text) {t : Text} (h : t.visibility = .visible) :
    (s ++ t).visibility = .visible := by
  rw [visibility_append, h]
  cases s.visibility <;> rfl

/-- Texts one after another are visible if the first of them is. -/
theorem visibility_flatten {t : Text} (ts : List Text) (h : t.visibility = .visible) :
    visibility (t :: ts).flatten = .visible := by
  rw [List.flatten_cons]
  exact visibility_append_left h _

/-- What is to be seen of joined texts depends on what is to be seen of each. -/
theorem visibility_join_congr (separator : Text) {ts ts' : List Text}
    (h : ts.map visibility = ts'.map visibility) :
    (join separator ts).visibility = (join separator ts').visibility := by
  unfold join
  induction ts generalizing ts' with
  | nil =>
      rw [List.map_nil] at h
      rw [List.map_eq_nil_iff.mp h.symm]
  | cons t ts ih =>
      obtain ⟨t', ts', rfl, ht, hts⟩ := List.map_eq_cons_iff.mp h.symm
      cases ts with
      | nil =>
          rw [List.map_nil, List.map_eq_nil_iff] at hts
          rw [hts, List.intercalate_singleton, List.intercalate_singleton, ht]
      | cons t₁ ts =>
          obtain ⟨t₁', ts', rfl, -, -⟩ := List.map_eq_cons_iff.mp hts
          rw [List.intercalate_cons_cons, List.intercalate_cons_cons]
          simp only [visibility_append, ht, ih hts.symm]

/-- Joined texts are visible if the first of them is. -/
theorem visibility_join (separator : Text) {t : Text} (ts : List Text)
    (h : t.visibility = .visible) : (join separator (t :: ts)).visibility = .visible := by
  unfold join
  cases ts with
  | nil => rwa [List.intercalate_singleton]
  | cons t' ts =>
      rw [List.intercalate_cons_cons, List.append_assoc]
      exact visibility_append_left h _

/-! ## Trimming -/

/-- Trimming leaves the units that are not blank. -/
theorem mem_trim {t : Text} {u : CodeUnit} (hu : u ∈ t) (hvisible : u.isBlank = false) :
    u ∈ t.trim := by
  have hdrop : ∀ t : Text, u ∈ t → u ∈ t.dropWhile isBlank := by
    intro t hu
    rw [← @List.takeWhile_append_dropWhile _ isBlank t, List.mem_append] at hu
    refine hu.resolve_left fun htake => ?_
    rw [List.all_eq_true.mp List.all_takeWhile u htake] at hvisible
    cases hvisible
  unfold trim trimEnd trimStart
  rw [List.mem_reverse]
  exact hdrop _ (List.mem_reverse.mpr (hdrop t hu))

/-- A visible text is visible when it is trimmed. -/
theorem visibility_trim {t : Text} (h : t.visibility = .visible) :
    t.trim.visibility = .visible := by
  obtain ⟨u, hu, hvisible⟩ := visibility_eq_visible_iff.mp h
  exact visibility_eq_visible_iff.mpr ⟨u, mem_trim hu hvisible, hvisible⟩

/-- Trimming leaves nothing of a text that is not visible. -/
theorem trim_eq_nil {t : Text} (h : t.visibility ≠ .visible) : t.trim = [] := by
  have hblank : ∀ u ∈ t, u.isBlank = true := by
    intro u hu
    cases hu' : u.isBlank with
    | true => rfl
    | false => exact absurd (visibility_eq_visible_iff.mpr ⟨u, hu, hu'⟩) h
  unfold trim trimEnd trimStart
  rw [List.dropWhile_eq_nil_iff.mpr hblank]
  rfl

end Text

end Sigil
