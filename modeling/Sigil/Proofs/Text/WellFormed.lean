import Sigil.Proofs.Text.CodePoints

/-!
# Well-formed texts

In a well-formed text no half stands alone, so it is a list of whole characters (`Text.IsWhole`).
What such texts are put together to and cut into is whole again, and so is all text that replaces
code points one by one by whole texts (`Text.isWhole_mapPoints`). Strings are whole, and a whole
text is the string that it is read as (`Text.IsWhole.ofString_toString`).
-/

namespace Sigil

namespace CodeUnit

/-- The unit is half of a pair. -/
def isHalf (u : CodeUnit) : Bool := u.isLeading || u.isTrailing

theorem isHalf_eq_false_iff {u : CodeUnit} :
    u.isHalf = false ↔ u.isLeading = false ∧ u.isTrailing = false := by
  rw [isHalf, Bool.or_eq_false_iff]

/-- A half is one of a range of units. -/
theorem isHalf_iff {u : CodeUnit} : u.isHalf = true ↔ 0xD800 ≤ u.toNat ∧ u.toNat < 0xE000 := by
  rw [isHalf, Bool.or_eq_true, isLeading_iff, isTrailing_iff]
  omega

/-- All units with a meaning in expressions are ASCII. -/
theorem isHalf_eq_false_of_isAscii {u : CodeUnit} (h : u.isAscii = true) : u.isHalf = false := by
  rw [isAscii_iff] at h
  rw [Bool.eq_false_iff, Ne, isHalf_iff]
  omega

theorem isHalf_eq_false_of_isBlank {u : CodeUnit} (h : u.isBlank = true) : u.isHalf = false := by
  rw [Bool.eq_false_iff, Ne, isHalf_iff]
  simp only [isBlank, Bool.or_eq_true, Bool.and_eq_true, decide_eq_true_eq, beq_iff_eq,
    ← UInt16.toNat_inj, UInt16.le_iff_toNat_le, UInt16.reduceToNat] at h
  omega

end CodeUnit

namespace Text

open CodeUnit

/-- The text is a list of whole characters. -/
inductive IsWhole : Text → Prop where
  | nil : IsWhole []
  | unit {u : CodeUnit} {t : Text} (hu : u.isHalf = false) (ht : IsWhole t) : IsWhole (u :: t)
  | pair {u v : CodeUnit} {t : Text} (hu : u.isLeading = true) (hv : v.isTrailing = true)
      (ht : IsWhole t) : IsWhole (u :: v :: t)

/-- A text is well-formed if it is a list of whole characters. -/
theorem wellFormed_iff {t : Text} : t.wellFormed = true ↔ IsWhole t := by
  constructor
  · intro h
    fun_induction wellFormed t with
    | case1 => exact .nil
    | case2 u =>
        rw [Bool.not_eq_true'] at h
        exact .unit h .nil
    | case3 u v rest hu ih =>
        rw [Bool.and_eq_true] at h
        exact .pair hu h.1 (ih h.2)
    | case4 u v rest hu ih =>
        rw [Bool.and_eq_true, Bool.not_eq_true'] at h
        exact .unit (isHalf_eq_false_iff.mpr ⟨Bool.eq_false_iff.mpr hu, h.1⟩) (ih h.2)
  · intro h
    induction h with
    | nil => rfl
    | @unit u t hu _ ih =>
        cases t with
        | nil =>
            rw [wellFormed, Bool.not_eq_true']
            exact hu
        | cons v t =>
            obtain ⟨hleading, htrailing⟩ := isHalf_eq_false_iff.mp hu
            rw [wellFormed, hleading, htrailing]
            exact ih
    | pair hu hv _ ih =>
        rw [wellFormed, if_pos hu, hv]
        exact ih

namespace IsWhole

variable {s t : Text}

/-- A whole text does not begin with the second half of a pair. -/
theorem isTrailing_head (h : IsWhole t) : ∀ u ∈ t.head?, u.isTrailing = false := by
  intro u hu
  cases h with
  | nil => cases hu
  | unit hu' =>
      cases hu
      exact (isHalf_eq_false_iff.mp hu').2
  | pair hu' =>
      cases hu
      rw [isLeading_iff] at hu'
      rw [Bool.eq_false_iff, Ne, isTrailing_iff]
      omega

/-- Whole texts one after another are whole. -/
theorem append (hs : IsWhole s) (ht : IsWhole t) : IsWhole (s ++ t) := by
  induction hs with
  | nil => exact ht
  | unit hu _ ih => exact .unit hu ih
  | pair hu hv _ ih => exact .pair hu hv ih

theorem flatten {ts : List Text} (h : ∀ t ∈ ts, IsWhole t) : IsWhole ts.flatten := by
  induction ts with
  | nil => exact .nil
  | cons t ts ih =>
      rw [List.forall_mem_cons] at h
      exact h.1.append (ih h.2)

/-- Replacing code points commutes with putting whole texts together, since no seam joins a pair. -/
theorem mapPoints_flatten (f : Nat → Text) {ts : List Text} (h : ∀ t ∈ ts, IsWhole t) :
    mapPoints f ts.flatten = ts.flatMap (mapPoints f) := by
  induction ts with
  | nil => rfl
  | cons t ts ih =>
      rw [List.forall_mem_cons] at h
      rw [List.flatten_cons, List.flatMap_cons, mapPoints_append f t (flatten h.2).isTrailing_head,
        ih h.2]

/-- Whole texts with blanks between them are whole. -/
theorem join {separator : Text} (hseparator : IsWhole separator) {ts : List Text}
    (h : ∀ t ∈ ts, IsWhole t) : IsWhole (Text.join separator ts) := by
  rw [Text.join]
  induction ts with
  | nil => exact .nil
  | cons t ts ih =>
      rw [List.forall_mem_cons] at h
      cases ts with
      | nil =>
          rw [List.intercalate_singleton]
          exact h.1
      | cons t' ts =>
          rw [List.intercalate_cons_cons]
          exact (h.1.append hseparator).append (ih h.2)

/-! ### Trimming -/

/-- A whole text is whole without the blanks it begins with. -/
theorem trimStart (h : IsWhole t) : IsWhole t.trimStart := by
  induction h with
  | nil => exact .nil
  | unit hu ht ih =>
      rw [Text.trimStart, List.dropWhile_cons]
      split
      · exact ih
      · exact .unit hu ht
  | pair hu hv ht ih =>
      -- no blank is a half
      rw [Text.trimStart, List.dropWhile_cons_of_neg]
      · exact .pair hu hv ht
      · intro hblank
        have hhalf := isHalf_eq_false_of_isBlank hblank
        rw [isHalf, hu] at hhalf
        cases hhalf

/-- A whole text is whole without blanks at its end. -/
theorem of_append_blanks (h : IsWhole t) {blanks : Text}
    (hblanks : ∀ u ∈ blanks, u.isBlank = true) (ht : t = s ++ blanks) : IsWhole s := by
  induction h generalizing s with
  | nil =>
      rw [(List.append_eq_nil_iff.mp ht.symm).1]
      exact .nil
  | unit hu _ ih =>
      cases s with
      | nil => exact .nil
      | cons u s =>
          obtain ⟨rfl, hrest⟩ := List.cons_eq_cons.mp ht
          exact .unit hu (ih hrest)
  | @pair u v rest hu hv _ ih =>
      match s with
      | [] => exact .nil
      | [u'] =>
          -- the blanks would begin with a half
          have hrest : v :: rest = blanks := (List.cons.inj ht).2
          have hblank : v.isBlank = true := hblanks v (hrest ▸ List.mem_cons_self ..)
          have hhalf := isHalf_eq_false_of_isBlank hblank
          rw [isHalf, hv, Bool.or_true] at hhalf
          cases hhalf
      | u' :: v' :: s =>
          obtain ⟨rfl, hbehind⟩ := List.cons.inj ht
          obtain ⟨rfl, hrest⟩ := List.cons.inj hbehind
          exact .pair hu hv (ih hrest)

theorem trim (h : IsWhole t) : IsWhole t.trim := by
  obtain ⟨blanks, hblanks, htrim⟩ := t.trimStart.exists_trimEnd_append
  exact h.trimStart.of_append_blanks hblanks htrim

end IsWhole

/-! ## Characters -/

/-- The spelling of a code point is whole unless the code point is a half. -/
theorem isWhole_ofCodePoint {c : Nat} (hc : c < 0x110000) (hhalf : c < 0xD800 ∨ 0xE000 ≤ c) :
    IsWhole (ofCodePoint c) := by
  have htoNat : ∀ n < 0x10000, (UInt16.ofNat n).toNat = n := by
    intro n hn
    rw [UInt16.toNat_ofNat']
    exact Nat.mod_eq_of_lt hn
  rw [ofCodePoint]
  split
  · rename_i hunit
    refine .unit ?_ .nil
    rw [Bool.eq_false_iff, Ne, isHalf_iff, htoNat c hunit]
    omega
  · refine .pair ?_ ?_ .nil
    · rw [isLeading_iff, htoNat _ (by omega)]
      omega
    · rw [isTrailing_iff, htoNat _ (by omega)]
      omega

/-- The characters of a whole text are whole. -/
theorem IsWhole.characters {t : Text} (h : IsWhole t) : ∀ c ∈ t.characters, IsWhole c := by
  unfold Text.characters
  induction h with
  | nil => exact List.forall_mem_nil _
  | unit hu _ ih =>
      rw [codePoints_cons (isHalf_eq_false_iff.mp hu).1, List.map_cons, List.forall_mem_cons,
        ofCodePoint_toNat]
      exact ⟨.unit hu .nil, ih⟩
  | pair hu hv _ ih =>
      rw [codePoints_pair hu hv, List.map_cons, List.forall_mem_cons, ofCodePoint_pairPoint hu hv]
      exact ⟨.pair hu hv .nil, ih⟩

/-- A whole character is the only character of its text. -/
theorem IsWhole.characters_of_mem {t : Text} (h : t.IsWhole) {c : Text}
    (hc : c ∈ t.characters) : c.characters = [c] := by
  unfold Text.characters at hc
  induction h with
  | nil => cases hc
  | @unit u t hu _ ih =>
      rw [codePoints_cons (isHalf_eq_false_iff.mp hu).1, List.map_cons,
        ofCodePoint_toNat] at hc
      rcases List.mem_cons.mp hc with rfl | hc
      · rw [Text.characters, codePoints_cons (isHalf_eq_false_iff.mp hu).1]
        exact congrArg (fun c => [c]) (ofCodePoint_toNat u)
      · exact ih hc
  | @pair u v t hu hv _ ih =>
      rw [codePoints_pair hu hv, List.map_cons, ofCodePoint_pairPoint hu hv] at hc
      rcases List.mem_cons.mp hc with rfl | hc
      · rw [Text.characters, codePoints_pair hu hv]
        exact congrArg (fun c => [c]) (ofCodePoint_pairPoint hu hv)
      · exact ih hc

/-- Whole characters one after another are the characters of the text that they make. -/
theorem characters_flatten {pieces : List Text} (hwhole : ∀ c ∈ pieces, c.IsWhole)
    (hpieces : ∀ c ∈ pieces, c.characters = [c]) : Text.characters pieces.flatten = pieces := by
  induction pieces with
  | nil => rfl
  | cons c pieces ih =>
      rw [List.forall_mem_cons] at hwhole hpieces
      have hseam := (IsWhole.flatten hwhole.2).isTrailing_head
      have hrest := ih hwhole.2 hpieces.2
      have hfirst := hpieces.1
      unfold Text.characters at hrest hfirst ⊢
      rw [List.flatten_cons, codePoints_append c hseam, List.map_append, hrest, hfirst]
      rfl

/-- A text made of whole replacements is whole. -/
theorem isWhole_mapPoints {f : Nat → Text} (hf : ∀ c, IsWhole (f c)) (t : Text) :
    IsWhole (mapPoints f t) := by
  rw [mapPoints, List.flatMap_def]
  refine .flatten fun piece hpiece => ?_
  obtain ⟨c, -, rfl⟩ := List.mem_map.mp hpiece
  exact hf c

/-- An ASCII text is whole. -/
theorem isWhole_of_ascii {t : Text} (h : ∀ u ∈ t, u.isAscii = true) : IsWhole t := by
  induction t with
  | nil => exact .nil
  | cons u t ih =>
      rw [List.forall_mem_cons] at h
      exact .unit (isHalf_eq_false_of_isAscii h.1) (ih h.2)

/-- A string has no halves at all. -/
theorem isWhole_ofString (s : String) : IsWhole (ofString s) := by
  rw [ofString, List.flatMap_def]
  refine .flatten fun piece hpiece => ?_
  obtain ⟨c, -, rfl⟩ := List.mem_map.mp hpiece
  have hvalid : c.toNat.isValidChar := c.valid
  refine isWhole_ofCodePoint ?_ ?_
  · rcases hvalid with h | h <;> omega
  · rcases hvalid with h | h <;> omega

/-- The code points of a whole text are those of characters. -/
theorem IsWhole.isValidChar {t : Text} (h : t.IsWhole) : ∀ c ∈ t.codePoints, c.isValidChar := by
  induction h with
  | nil => exact List.forall_mem_nil _
  | @unit u _ hu _ ih =>
      rw [codePoints_cons (isHalf_eq_false_iff.mp hu).1, List.forall_mem_cons]
      refine ⟨?_, ih⟩
      rw [Bool.eq_false_iff, Ne, isHalf_iff] at hu
      have hlt : u.toNat < 0x10000 := u.toNat_lt
      unfold Nat.isValidChar
      omega
  | pair hu hv _ ih =>
      rw [codePoints_pair hu hv, List.forall_mem_cons]
      refine ⟨?_, ih⟩
      rw [isLeading_iff] at hu
      rw [isTrailing_iff] at hv
      unfold pairPoint Nat.isValidChar
      omega

/-- The characters of the string that a whole text is read as. -/
theorem IsWhole.map_toNat_toString {t : Text} (h : t.IsWhole) :
    t.toString.toList.map Char.toNat = t.codePoints := by
  have hpoints : ∀ c ∈ t.codePoints,
      (if c.isValidChar then Char.ofNat c else '\uFFFD').toNat = c := by
    intro c hc
    have hvalid := h.isValidChar c hc
    rw [if_pos hvalid, Char.ofNat, dif_pos hvalid]
    rfl
  rw [toString, String.toList_ofList, List.map_map]
  exact (List.map_congr_left hpoints).trans (List.map_id _)

/-- A whole text is the string that it is read as. -/
theorem IsWhole.ofString_toString {t : Text} (h : t.IsWhole) : ofString t.toString = t := by
  have hspelled : ofString t.toString = ofCodePoints (t.toString.toList.map Char.toNat) := by
    rw [ofCodePoints, List.flatMap_map]
    rfl
  rw [hspelled, h.map_toNat_toString, ofCodePoints_codePoints]

end Text

end Sigil
