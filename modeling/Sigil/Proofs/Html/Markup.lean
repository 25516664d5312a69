import Sigil.Backend.Html
import Sigil.Proofs.Text.CodePoints

/-!
# Nested markup

The HTML that a backend may write: subscripts, superscripts, line breaks and references, nested
properly, around units that mean themselves (`IsNested`). Escaped text is such markup
(`isNested_escape`), it stays such markup when it is trimmed (`IsNested.trim`), and the last pass
leaves ASCII alone (`IsNested.translate`). Before the last pass units of any kind may stand outside
markup unless they are reserved; behind it they are plain.
-/

namespace Sigil.Html

open CodeUnit (isAscii isBlank newline)

/-! ## The grammar -/

/-- A unit that HTML does not read as itself. -/
def isReserved (u : CodeUnit) : Bool := u == 0x26 || u == 0x3C || u == 0x3E || u == 0x22

/-- A unit that may stand outside markup before the last pass. -/
def isInert (u : CodeUnit) : Bool := !isReserved u

/-- A unit that may stand outside markup behind the last pass. -/
def isPlain (u : CodeUnit) : Bool := isInert u && u.isAscii && u != newline

/-- A complete reference: to a reserved unit, to a Greek letter, or to a code point by number. -/
inductive IsReference : Text → Prop where
  | lt : IsReference "&lt;"
  | gt : IsReference "&gt;"
  | amp : IsReference "&amp;"
  | quot : IsReference "&quot;"
  | greek {letter : Text} (h : letter ∈ Symbols.Unicode.greek.keys) :
      IsReference ("&" ++ letter ++ ";")
  | numeric {digits : Text} (hne : digits ≠ []) (h : ∀ u ∈ digits, Text.isHexDigit u = true) :
      IsReference ("&#x" ++ digits ++ ";")

/-- A line break or a reference, which have nothing inside. -/
def IsAtom (t : Text) : Prop := t = "<br>" ∨ IsReference t

/-- The elements that may be written. -/
def elements : List Text := ["sub", "sup"]

/-- The tag that begins an element. -/
def startTag (tag : Text) : Text := "<" ++ tag ++ ">"

/-- The tag that ends an element. -/
def endTag (tag : Text) : Text := "</" ++ tag ++ ">"

/-- Properly nested markup, with the admitted units outside it. -/
inductive IsNested (admits : CodeUnit → Bool) : Text → Prop where
  | nil : IsNested admits []
  | unit {u : CodeUnit} {rest : Text} (hu : admits u = true) (hrest : IsNested admits rest) :
      IsNested admits (u :: rest)
  | atom {a rest : Text} (ha : IsAtom a) (hrest : IsNested admits rest) :
      IsNested admits (a ++ rest)
  | element {tag body rest : Text} (htag : tag ∈ elements) (hbody : IsNested admits body)
      (hrest : IsNested admits rest) :
      IsNested admits (startTag tag ++ body ++ endTag tag ++ rest)

variable {admits : CodeUnit → Bool}

namespace IsNested

theorem of_unit {u : CodeUnit} (h : admits u = true) : IsNested admits [u] := unit h nil

theorem of_atom {a : Text} (h : IsAtom a) : IsNested admits a := by
  have hnested : IsNested admits (a ++ []) := atom h nil
  rwa [List.append_nil] at hnested

theorem of_element {tag body : Text} (htag : tag ∈ elements) (hbody : IsNested admits body) :
    IsNested admits (startTag tag ++ body ++ endTag tag) := by
  have hnested := element htag hbody nil
  rwa [List.append_nil] at hnested

/-- Markup behind markup is markup. -/
theorem append {s t : Text} (hs : IsNested admits s) (ht : IsNested admits t) :
    IsNested admits (s ++ t) := by
  induction hs with
  | nil => exact ht
  | unit hu _ ih => exact unit hu ih
  | atom ha _ ih =>
      rw [List.append_assoc]
      exact atom ha ih
  | element htag hbody _ _ ih =>
      rw [List.append_assoc]
      exact element htag hbody ih

/-- Markup is still markup where more units are admitted. -/
theorem mono {admits' : CodeUnit → Bool} (h : ∀ u, admits u = true → admits' u = true) {t : Text}
    (ht : IsNested admits t) : IsNested admits' t := by
  induction ht with
  | nil => exact nil
  | unit hu _ ih => exact unit (h _ hu) ih
  | atom ha _ ih => exact atom ha ih
  | element htag _ _ ihbody ih => exact element htag ihbody ih

/-- Text of admitted units is markup. -/
theorem of_all {t : Text} (h : t.all admits = true) : IsNested admits t := by
  induction t with
  | nil => exact nil
  | cons u t ih =>
      rw [List.all_cons, Bool.and_eq_true] at h
      exact unit h.1 (ih h.2)

/-- Markup for each member of a list, one after another, is markup. -/
theorem flatMap {α : Type} {f : α → Text} {l : List α} (h : ∀ a ∈ l, IsNested admits (f a)) :
    IsNested admits (l.flatMap f) := by
  induction l with
  | nil => exact nil
  | cons a l ih =>
      rw [List.flatMap_cons]
      exact (h a (by simp)).append (ih fun b hb => h b (by simp [hb]))

end IsNested

/-! ## Escaped text and references -/

/-- A numeric reference to a code point is complete. -/
theorem isReference_reference (c : Nat) : IsReference (reference c) := by
  show IsReference ("&#x" ++ Text.hex c ++ ";")
  exact .numeric (Text.hex_ne_nil c) fun _ => Text.isHexDigit_of_mem_hex

theorem isNested_reference (c : Nat) : IsNested admits (reference c) :=
  .of_atom (.inr (isReference_reference c))

/-- References are markup, whatever the text is that they refer to. -/
theorem isNested_references (t : Text) : IsNested admits (references t) :=
  .flatMap fun c _ => isNested_reference c

theorem isNested_escapeUnit (u : CodeUnit) : IsNested isInert (escapeUnit u) := by
  unfold escapeUnit
  split
  · exact .of_atom (.inr .amp)
  split
  · exact .of_atom (.inr .lt)
  split
  · exact .of_atom (.inr .gt)
  split
  · exact .of_atom (.inr .quot)
  · rename_i hamp hlt hgt hquot
    refine .of_unit ?_
    simp [isInert, isReserved, hamp, hlt, hgt, hquot]

/-- Escaped text is markup, whatever the text is. -/
theorem isNested_escape (t : Text) : IsNested isInert (escape t) :=
  .flatMap fun u _ => isNested_escapeUnit u

/-! ## Pieces of markup that are all of one kind -/

/-- The unit is an ASCII character that is not blank. -/
def isVisible (u : CodeUnit) : Bool := u.isAscii && !u.isBlank

/-- The text is not empty, and all of its units are visible. -/
def isSolid (t : Text) : Bool := !t.isEmpty && t.all isVisible

theorem isVisible_iff {u : CodeUnit} :
    isVisible u = true ↔ u.isAscii = true ∧ u.isBlank = false := by
  simp [isVisible]

theorem isSolid_iff {t : Text} : isSolid t = true ↔ t ≠ [] ∧ ∀ u ∈ t, isVisible u = true := by
  simp [isSolid]

/-- A digit is visible. -/
theorem isVisible_of_isHexDigit {u : CodeUnit} (h : Text.isHexDigit u = true) :
    isVisible u = true := by
  simp only [Text.isHexDigit, CodeUnit.isDigit, Bool.or_eq_true, Bool.and_eq_true,
    decide_eq_true_eq, UInt16.le_iff_toNat_le, UInt16.reduceToNat] at h
  rw [isVisible_iff, CodeUnit.isAscii_iff]
  simp only [isBlank, Bool.or_eq_false_iff, Bool.and_eq_false_iff, decide_eq_false_iff_not,
    beq_eq_false_iff_ne, ne_eq, ← UInt16.toNat_inj, UInt16.le_iff_toNat_le, UInt16.reduceToNat]
  omega

theorem isSolid_greek {letter : Text} (h : letter ∈ Symbols.Unicode.greek.keys) :
    isSolid ("&" ++ letter ++ ";") = true := by
  have hall : ∀ entry ∈ Symbols.Unicode.greek.entries, isSolid ("&" ++ entry.1 ++ ";") = true :=
    Mapping.forall_mem_ofStrings (by decide +kernel)
  obtain ⟨entry, hentry, rfl⟩ := List.mem_map.mp h
  exact hall entry hentry

theorem isSolid_numeric {digits : Text} (h : ∀ u ∈ digits, Text.isHexDigit u = true) :
    isSolid ("&#x" ++ digits ++ ";") = true := by
  have hfront : (Text.ofString "&#x").all isVisible = true := by decide
  have hdigits : digits.all isVisible = true :=
    List.all_eq_true.mpr fun u hu => isVisible_of_isHexDigit (h u hu)
  have hback : (Text.ofString ";").all isVisible = true := by decide
  rw [isSolid_iff, ← List.all_eq_true, List.all_append, List.all_append, hfront, hdigits, hback]
  exact ⟨List.append_ne_nil_of_right_ne_nil _ (by decide), rfl⟩

/-- Line breaks and references are solid. -/
theorem IsAtom.isSolid {a : Text} (h : IsAtom a) : isSolid a = true := by
  rcases h with rfl | h
  · decide
  cases h with
  | lt => decide
  | gt => decide
  | amp => decide
  | quot => decide
  | greek h => exact isSolid_greek h
  | numeric _ h => exact isSolid_numeric h

theorem isSolid_startTag {tag : Text} (h : tag ∈ elements) : isSolid (startTag tag) = true := by
  have hall : elements.all (fun tag => isSolid (startTag tag)) = true := by decide
  exact List.all_eq_true.mp hall tag h

theorem isSolid_endTag {tag : Text} (h : tag ∈ elements) : isSolid (endTag tag) = true := by
  have hall : elements.all (fun tag => isSolid (endTag tag)) = true := by decide
  exact List.all_eq_true.mp hall tag h

/-! ## Trimming -/

/-- A solid text begins with what is not blank. -/
theorem trimStart_solid_append {s : Text} (hs : isSolid s = true) (t : Text) :
    (s ++ t).trimStart = s ++ t := by
  rw [isSolid_iff] at hs
  obtain ⟨u, s, rfl⟩ := List.exists_cons_of_ne_nil hs.1
  have hu : u.isBlank = false := (isVisible_iff.mp (hs.2 u (by simp))).2
  rw [Text.trimStart, List.cons_append, List.dropWhile_cons_of_neg (by simp [hu])]

/-- A blank end of a text does not reach into a solid piece of it. -/
theorem blank_end_behind_solid (front : Text) {s rest v b : Text} (hs : isSolid s = true)
    (hb : ∀ u ∈ b, u.isBlank = true) (h : front ++ s ++ rest = v ++ b) :
    ∃ x, v = front ++ s ++ x ∧ rest = x ++ b := by
  rcases List.append_eq_append_iff.mp h with ⟨x, hv, hrest⟩ | ⟨c, hv, hc⟩
  · exact ⟨x, hv, hrest⟩
  -- the blank end would begin with `c`, which is the end of the front and the solid piece
  rcases List.eq_nil_or_concat c with rfl | ⟨c, u, rfl⟩
  · exact ⟨[], by simpa using hv.symm, hc.symm⟩
  · rw [isSolid_iff] at hs
    obtain ⟨s, u', rfl⟩ := (List.eq_nil_or_concat s).resolve_left hs.1
    have hblank : u.isBlank = true := hb u (by rw [hc]; simp)
    have hvisible : u'.isBlank = false := (isVisible_iff.mp (hs.2 u' (by simp))).2
    have hlast : u' = u := by
      simp only [List.concat_eq_append, ← List.append_assoc] at hv
      exact (List.append_inj_right' hv rfl) |> List.singleton_inj.mp
    rw [hlast, hblank] at hvisible
    cases hvisible

namespace IsNested

/-- Markup is still markup without the blanks it begins with. -/
theorem trimStart {t : Text} (h : IsNested admits t) : IsNested admits t.trimStart := by
  induction h with
  | nil => exact nil
  | @unit u rest hu hrest ih =>
      rw [Text.trimStart, List.dropWhile_cons]
      split
      · exact ih
      · exact unit hu hrest
  | atom ha hrest _ =>
      rw [trimStart_solid_append ha.isSolid]
      exact atom ha hrest
  | element htag hbody hrest _ _ =>
      simp only [List.append_assoc]
      rw [trimStart_solid_append (isSolid_startTag htag)]
      simpa only [List.append_assoc] using element htag hbody hrest

/-- Markup is still markup without blanks at its end, since no piece of markup ends with one. -/
theorem of_append_blank {t : Text} (h : IsNested admits t) {v b : Text}
    (hb : ∀ u ∈ b, u.isBlank = true) (ht : t = v ++ b) : IsNested admits v := by
  -- the text that is left may end inside a run of units, but only between other pieces
  induction h generalizing v with
  | nil =>
      rw [(List.append_eq_nil_iff.mp ht.symm).1]
      exact nil
  | @unit u rest hu _ ih =>
      cases v with
      | nil => exact nil
      | cons u' v =>
          obtain ⟨rfl, hrest⟩ := List.cons_eq_cons.mp ht
          exact unit hu (ih hrest)
  | @atom a rest ha _ ih =>
      obtain ⟨x, rfl, hrest⟩ := blank_end_behind_solid [] ha.isSolid hb ht
      exact atom ha (ih hrest)
  | element htag hbody _ _ ih =>
      obtain ⟨x, rfl, hrest⟩ := blank_end_behind_solid _ (isSolid_endTag htag) hb ht
      exact element htag hbody (ih hrest)

/-- Markup is still markup when it is trimmed. -/
theorem trim {t : Text} (h : IsNested admits t) : IsNested admits t.trim := by
  obtain ⟨blanks, hblanks, htrim⟩ := t.trimStart.exists_trimEnd_append
  exact h.trimStart.of_append_blank hblanks htrim

end IsNested

/-! ## The last pass -/

/-- The last pass leaves a visible ASCII character as it is. -/
theorem translatePoint_of_isVisible {u : CodeUnit} (h : isVisible u = true) :
    translatePoint u.toNat = [u] := by
  have hnewline : u.toNat ≠ 0x0A := by
    intro hu
    have hu' : u = newline := UInt16.toNat_inj.mp hu
    rw [hu'] at h
    exact absurd h (by decide)
  rw [translatePoint, if_neg hnewline,
    if_pos (CodeUnit.isAscii_iff.mp (isVisible_iff.mp h).1), Text.ofCodePoint_toNat]

/-- The last pass leaves visible ASCII as it is. -/
theorem translate_solid_append {s : Text} (hs : isSolid s = true) (t : Text) :
    translate (s ++ t) = s ++ translate t := by
  rw [isSolid_iff] at hs
  have hascii : ∀ u ∈ s, u.isAscii = true := fun u hu => (isVisible_iff.mp (hs.2 u hu)).1
  rw [translate, Text.mapPoints_ascii_append _ hascii]
  congr 1
  exact Text.mapPoints_of_ascii hascii fun u hu => translatePoint_of_isVisible (hs.2 u hu)

/-- The last pass takes what stands in front of visible ASCII by itself. -/
theorem translate_append_solid {s : Text} (hs : isSolid s = true) (front t : Text) :
    translate (front ++ (s ++ t)) = translate front ++ (s ++ translate t) := by
  rw [← translate_solid_append hs]
  refine Text.mapPoints_append _ front ?_
  intro u hu
  rw [isSolid_iff] at hs
  obtain ⟨u', s, rfl⟩ := List.exists_cons_of_ne_nil hs.1
  cases hu
  exact CodeUnit.isTrailing_eq_false_of_isAscii (isVisible_iff.mp (hs.2 u (by simp))).1

/-- A solid text does not begin with the second half of a pair. -/
theorem isTrailing_head_solid {s t rest : Text} {u : CodeUnit} (hs : isSolid s = true)
    (h : s ++ t = u :: rest) : u.isTrailing = false := by
  rw [isSolid_iff] at hs
  obtain ⟨u', s, rfl⟩ := List.exists_cons_of_ne_nil hs.1
  obtain ⟨rfl, -⟩ := List.cons_eq_cons.mp h
  exact CodeUnit.isTrailing_eq_false_of_isAscii (isVisible_iff.mp (hs.2 u' (by simp))).1

/-- What the last pass writes for a unit that is no half of a pair. -/
theorem isNested_translatePoint {u : CodeUnit} (h : isInert u = true) :
    IsNested isPlain (translatePoint u.toNat) := by
  unfold translatePoint
  split
  · exact .of_atom (.inl rfl)
  split
  · rename_i hnewline hascii
    rw [Text.ofCodePoint_toNat]
    refine .of_unit ?_
    simp only [isPlain, h, CodeUnit.isAscii_iff.mpr hascii, Bool.true_and, bne_iff_ne]
    intro hu
    exact hnewline (by rw [hu]; rfl)
  · exact isNested_reference _

/-- What the last pass writes for a pair. -/
theorem isNested_translatePoint_pair (u v : CodeUnit) :
    IsNested isPlain (translatePoint (u.pairPoint v)) := by
  have hpoint : 0x10000 ≤ u.pairPoint v := by
    unfold CodeUnit.pairPoint
    omega
  have hnewline : u.pairPoint v ≠ 0x0A := by omega
  have hascii : ¬ u.pairPoint v < 128 := by omega
  rw [translatePoint, if_neg hnewline, if_neg hascii]
  exact isNested_reference (u.pairPoint v)

/-- Behind the last pass markup admits plain units only. A unit may be the first half of a pair with
the unit behind it, so the statement is proved together with that for what follows a second half. -/
theorem IsNested.translate_and_behind {t : Text} (h : IsNested isInert t) :
    IsNested isPlain (Html.translate t) ∧
      ∀ v rest, t = v :: rest → v.isTrailing = true → IsNested isPlain (Html.translate rest) := by
  induction h with
  | nil =>
      refine ⟨nil, ?_⟩
      intro _ _ h
      cases h
  | @unit u rest hu _ ih =>
      refine ⟨?_, ?_⟩
      -- a pair is one code point, so the rest behind its second half is all that is left
      · by_cases hpair : u.isLeading = true ∧ ∃ v rest', rest = v :: rest' ∧ v.isTrailing = true
        · obtain ⟨hleading, v, rest', rfl, htrailing⟩ := hpair
          rw [Html.translate, Text.mapPoints, Text.codePoints_pair hleading htrailing,
            List.flatMap_cons]
          exact (isNested_translatePoint_pair u v).append (ih.2 v rest' rfl htrailing)
        · rw [Html.translate, Text.mapPoints, Text.codePoints_cons_unpaired hpair,
            List.flatMap_cons]
          exact (isNested_translatePoint hu).append ih.1
      · intro v rest' h _
        obtain ⟨-, rfl⟩ := List.cons_eq_cons.mp h
        exact ih.1
  | atom ha _ ih =>
      refine ⟨?_, ?_⟩
      · rw [translate_solid_append ha.isSolid]
        exact atom ha ih.1
      · intro v rest h htrailing
        rw [isTrailing_head_solid ha.isSolid h] at htrailing
        cases htrailing
  | @element tag body rest htag _ _ ihbody ih =>
      have hstart := isSolid_startTag htag
      refine ⟨?_, ?_⟩
      · simp only [List.append_assoc]
        rw [translate_solid_append hstart, translate_append_solid (isSolid_endTag htag)]
        simpa only [List.append_assoc] using element htag ihbody.1 ih.1
      · intro v rest h htrailing
        simp only [List.append_assoc] at h
        rw [isTrailing_head_solid hstart h] at htrailing
        cases htrailing

/-- Behind the last pass markup admits plain units only. -/
theorem IsNested.translate {t : Text} (h : IsNested isInert t) :
    IsNested isPlain (Html.translate t) :=
  h.translate_and_behind.1

end Sigil.Html
