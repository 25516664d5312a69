import Mathlib.Data.List.Basic
import Sigil.Backend
import Sigil.Proofs.Html.Markup
import Sigil.Proofs.Text.Visibility

/-!
# The last pass

Output that went through the last pass and goes through it again: plain text and HTML stay as they
are (`Plain.translate_translate`, `Html.translate_translate`). LaTeX does not, since its last pass
writes blanks, and takes the blanks that it reads for blanks of the source
(`Latex.mapPoints_translatePoint_twice`). No last pass makes visible output disappear
(`Backend.visibility_translate`).
-/

namespace Sigil

open CodeUnit (isAscii newline space backslash)

/-- The last pass of plain text changes nothing in its own output. -/
theorem Plain.translate_translate (t : Text) : translate (translate t) = translate t := by
  refine Text.mapPoints_mapPoints ?_ t
  intro c u hu
  have hascii : u.toNat < 128 := by
    unfold translatePoint at hu
    split at hu
    · rename_i hc
      rw [Text.mem_ofCodePoint_of_ascii hc hu]
      exact hc
    · rw [List.mem_singleton.mp (hu : u ∈ [0x3F])]
      decide
  refine ⟨CodeUnit.isAscii_iff.mpr hascii, ?_⟩
  rw [translatePoint, if_pos hascii, Text.ofCodePoint_toNat]

/-- The last pass of HTML changes nothing in its own output. -/
theorem Html.translate_translate (t : Text) : translate (translate t) = translate t := by
  -- markup is visible, and all else that the last pass writes is an ASCII character that it left
  have hsolid : ∀ {a : Text}, IsAtom a →
      ∀ u ∈ a, u.isAscii = true ∧ translatePoint u.toNat = [u] := by
    intro a ha u hu
    have hvisible := (isSolid_iff.mp ha.isSolid).2 u hu
    exact ⟨(isVisible_iff.mp hvisible).1, translatePoint_of_isVisible hvisible⟩
  refine Text.mapPoints_mapPoints ?_ t
  intro c u hu
  unfold translatePoint at hu
  split at hu
  · exact hsolid (.inl rfl) u hu
  split at hu
  · rename_i hnewline hascii
    have hu' := Text.mem_ofCodePoint_of_ascii hascii hu
    refine ⟨CodeUnit.isAscii_iff.mpr (hu' ▸ hascii), ?_⟩
    rw [translatePoint, if_neg (hu' ▸ hnewline), if_pos (hu' ▸ hascii), Text.ofCodePoint_toNat]
  · exact hsolid (.inr (isReference_reference c)) u hu

namespace Latex

/-- A blank with a backslash in front of it; all other units as they are. -/
def protect (u : CodeUnit) : Text := if u = space then [backslash, space] else [u]

/-- A text stays as it is when its blanks are protected, if it has none. -/
theorem flatMap_protect_eq_iff {t : Text} : t.flatMap protect = t ↔ space ∉ t := by
  have hlength : (t.flatMap protect).length = t.length + t.count space := by
    induction t with
    | nil => rfl
    | cons u t ih =>
        rw [List.flatMap_cons, List.length_append, ih, List.count_cons, List.length_cons, protect]
        by_cases hu : u = space
        · simp [hu]
          omega
        · simp [hu]
          omega
  constructor
  · intro h
    rw [h] at hlength
    exact List.count_eq_zero.mp (by omega)
  · intro h
    have hunits : ∀ u ∈ t, protect u = [u] := by
      intro u hu
      exact if_neg fun heq : u = space => h (heq ▸ hu)
    rw [List.flatMap_def, List.map_congr_left hunits, ← List.flatMap_def, List.flatMap_singleton']

/-- A call by itself is not reordered, whether it is a mark or not. -/
theorem translate_call (isMark : Text → Bool) (t : Text) :
    translate isMark [⟨.call, t⟩] = t.mapPoints translatePoint := by
  have horder : reorder isMark [⟨.call, t⟩] = [⟨.call, t⟩] := by
    show place isMark [] ⟨.call, t⟩ = _
    unfold place
    split <;> rfl
  rw [translate, horder, Fragment.concat, List.flatMap_singleton]

/-- The macro for a code point that is not ASCII is visible. -/
theorem all_isVisible_unicode (c : Nat) :
    ("\\unicode" ++ brace (Text.hex c)).all Html.isVisible = true := by
  have hfront : (Text.ofString "\\unicode").all Html.isVisible = true := by decide
  have hopen : (Text.ofString "\x7b").all Html.isVisible = true := by decide
  have hclose : (Text.ofString "\x7d").all Html.isVisible = true := by decide
  have hdigits : (Text.hex c).all Html.isVisible = true :=
    List.all_eq_true.mpr fun u hu =>
      Html.isVisible_of_isHexDigit (Text.isHexDigit_of_mem_hex hu)
  simp only [brace, List.all_append, hfront, hopen, hclose, hdigits, Bool.and_self]

/-- The last pass writes ASCII characters other than the line end. -/
theorem mem_translatePoint {c : Nat} {u : CodeUnit} (hu : u ∈ translatePoint c) :
    u.isAscii = true ∧ u ≠ newline := by
  have hliteral : ∀ t : Text, (t.all fun u => u.isAscii && u != newline) = true →
      u ∈ t → u.isAscii = true ∧ u ≠ newline := by
    intro t ht hu
    have hboth := List.all_eq_true.mp ht u hu
    rw [Bool.and_eq_true, bne_iff_ne] at hboth
    exact hboth
  unfold translatePoint at hu
  split at hu
  · exact hliteral "\\\\" rfl hu
  split at hu
  · exact hliteral "\\ " rfl hu
  split at hu
  · rename_i hnewline _ hascii
    have hu' := Text.mem_ofCodePoint_of_ascii hascii hu
    refine ⟨CodeUnit.isAscii_iff.mpr (hu' ▸ hascii), ?_⟩
    rintro rfl
    exact hnewline hu'.symm
  · have hvisible := List.all_eq_true.mp (all_isVisible_unicode c) u hu
    refine ⟨(Html.isVisible_iff.mp hvisible).1, ?_⟩
    rintro rfl
    cases hvisible

/-- The last pass protects the blanks of its own output, and changes nothing else. -/
theorem mapPoints_translatePoint_twice (t : Text) :
    (t.mapPoints translatePoint).mapPoints translatePoint =
      (t.mapPoints translatePoint).flatMap protect := by
  have hunits : ∀ u ∈ t.mapPoints translatePoint, u.isAscii = true ∧ u ≠ newline := by
    intro u hu
    obtain ⟨c, -, hc⟩ := List.mem_flatMap.mp hu
    exact mem_translatePoint hc
  have hprotect : ∀ u ∈ t.mapPoints translatePoint, translatePoint u.toNat = protect u := by
    intro u hu
    obtain ⟨hascii, hnewline⟩ := hunits u hu
    have hpoint : u.toNat ≠ 0x0A := fun heq => hnewline (UInt16.toNat_inj.mp heq)
    rw [translatePoint, protect, if_neg hpoint]
    by_cases hspace : u = space
    · rw [if_pos hspace, hspace]
      rfl
    · have hpoint' : u.toNat ≠ 0x20 := fun heq => hspace (UInt16.toNat_inj.mp heq)
      rw [if_neg hpoint', if_neg hspace, if_pos (CodeUnit.isAscii_iff.mp hascii),
        Text.ofCodePoint_toNat]
  generalize t.mapPoints translatePoint = out at hunits hprotect
  rw [Text.mapPoints, Text.codePoints_of_ascii fun u hu => (hunits u hu).1, List.flatMap_map,
    List.flatMap_def, List.map_congr_left hprotect, ← List.flatMap_def]

end Latex

/-! ## What is to be seen of output -/

/-- Replacing code points shows a visible text, if it shows every visible character. -/
theorem Text.visibility_mapPoints {f : Nat → Text}
    (hf : ∀ c, (ofCodePoint c).visibility = .visible → (f c).visibility = .visible) {t : Text}
    (ht : t.visibility = .visible) : (mapPoints f t).visibility = .visible := by
  obtain ⟨u, hu, hvisible⟩ := visibility_eq_visible_iff.mp ht
  rw [← ofCodePoints_codePoints t] at hu
  obtain ⟨c, hc, hu⟩ := List.mem_flatMap.mp hu
  obtain ⟨u', hu', hvisible'⟩ :=
    visibility_eq_visible_iff.mp (hf c (visibility_eq_visible_iff.mpr ⟨u, hu, hvisible⟩))
  exact visibility_eq_visible_iff.mpr ⟨u', List.mem_flatMap.mpr ⟨c, hc, hu'⟩, hvisible'⟩

namespace Latex

variable {isMark : Text → Bool}

/-- Decorating a fragment loses nothing of it and nothing of the mark. -/
theorem mem_concat_decorate {base : Fragment} {mark : Text} {u : CodeUnit}
    (hu : u ∈ base.text ∨ u ∈ mark) : u ∈ Fragment.concat (decorate base mark) := by
  have hbrace : ∀ t : Text, u ∈ t → u ∈ brace t := by
    intro t ht
    exact List.mem_append_left _ (List.mem_append_right _ ht)
  obtain ⟨kind, text⟩ := base
  cases kind with
  | call =>
      simp only [decorate, Fragment.concat, List.flatMap_singleton]
      rcases hu with hu | hu
      · refine List.mem_append_right _ ?_
        unfold braceOnce
        split
        · exact hu
        · exact hbrace text hu
      · exact List.mem_append_left _ hu
  | literal =>
      rw [← text.flatten_characters] at hu
      simp only [decorate]
      split
      · rename_i hnone
        rw [List.getLast?_eq_none_iff.mp hnone] at hu
        rw [Fragment.concat, List.flatMap_singleton]
        exact hu.resolve_left List.not_mem_nil
      · rename_i last hlast
        -- the mark goes over the last character, and those before it stay where they are
        have hcharacters := List.dropLast_append_getLast? last hlast
        rw [← hcharacters, List.flatten_append, List.flatten_singleton, List.mem_append] at hu
        have hdecorated : u ∈ last ∨ u ∈ mark → u ∈ mark ++ brace last := by
          rintro (hu | hu)
          · exact List.mem_append_right _ (hbrace last hu)
          · exact List.mem_append_left _ hu
        split
        · rename_i hrest
          rw [hrest] at hu
          simp only [Fragment.concat, List.flatMap_singleton]
          exact hdecorated (hu.imp_left fun hu => hu.resolve_left List.not_mem_nil)
        · simp only [Fragment.concat, List.flatMap_cons, List.flatMap_nil, List.append_nil,
            List.mem_append] at hdecorated ⊢
          rcases hu with (hu | hu) | hu
          · exact .inl hu
          · exact .inr (hdecorated (.inl hu))
          · exact .inr (hdecorated (.inr hu))

/-- Adding a fragment to those in order loses nothing. -/
theorem mem_concat_place {ordered : List Fragment} {fragment : Fragment} {u : CodeUnit}
    (hu : u ∈ Fragment.concat ordered ∨ u ∈ fragment.text) :
    u ∈ Fragment.concat (place isMark ordered fragment) := by
  unfold place
  split
  · split
    · rename_i hnone
      rw [List.getLast?_eq_none_iff.mp hnone] at hu
      rw [Fragment.concat, List.flatMap_singleton]
      exact hu.resolve_left List.not_mem_nil
    · rename_i base hbase
      rw [← List.dropLast_append_getLast? base hbase] at hu
      simp only [Fragment.concat, List.flatMap_append, List.flatMap_singleton,
        List.mem_append] at hu ⊢
      rcases hu with (hu | hu) | hu
      · exact .inl hu
      · exact .inr (mem_concat_decorate (.inl hu))
      · exact .inr (mem_concat_decorate (.inr hu))
  · simpa only [Fragment.concat, List.flatMap_append, List.flatMap_singleton,
      List.mem_append] using hu

/-- Putting marks in front of what they decorate loses nothing. -/
theorem mem_concat_reorder {fragments : List Fragment} {u : CodeUnit}
    (hu : u ∈ Fragment.concat fragments) : u ∈ Fragment.concat (reorder isMark fragments) := by
  have hfold : ∀ fragments ordered : List Fragment,
      u ∈ Fragment.concat ordered ∨ u ∈ Fragment.concat fragments →
        u ∈ Fragment.concat (fragments.foldl (place isMark) ordered) := by
    intro fragments
    induction fragments with
    | nil => exact fun ordered hu => hu.resolve_right List.not_mem_nil
    | cons fragment rest ih =>
        intro ordered hu
        have hcons : Fragment.concat (fragment :: rest) = fragment.text ++ Fragment.concat rest :=
          List.flatMap_cons
        rw [hcons, List.mem_append, ← or_assoc] at hu
        exact ih _ (hu.imp_left mem_concat_place)
  exact hfold fragments [] (.inr hu)

end Latex

/-- The last pass shows visible output. -/
theorem Backend.visibility_translate (b : Backend) (reg : Registry) {fragments : List Fragment}
    (h : (Fragment.concat fragments).visibility = .visible) :
    (b.translate reg (Fragment.concat fragments) fragments).visibility = .visible := by
  unfold translate
  cases b.representation with
  | plain =>
      refine Text.visibility_mapPoints ?_ h
      intro c hc
      unfold Plain.translatePoint
      split
      · exact hc
      · rfl
  | unicode => exact h
  | html =>
      refine Text.visibility_mapPoints ?_ h
      intro c hc
      unfold Html.translatePoint
      split
      · rfl
      split
      · exact hc
      · exact Text.visibility_append_left (Text.visibility_append_left rfl _) _
  | latex =>
      obtain ⟨u, hu, hvisible⟩ := Text.visibility_eq_visible_iff.mp h
      refine Text.visibility_mapPoints ?_
        (Text.visibility_eq_visible_iff.mpr ⟨u, Latex.mem_concat_reorder hu, hvisible⟩)
      intro c hc
      unfold Latex.translatePoint
      split
      · rfl
      split
      · rfl
      split
      · exact hc
      · exact Text.visibility_append_left rfl _

end Sigil
