import Sigil.Backend.Html.Decode
import Sigil.Proofs.Engine.Nesting

/-!
# HTML text read back

Tags and references are read back one at a time, so a text that is written as one code for each of
its code points is read back as itself if each code is (`decode_flatMap`). Numeric references are
such codes (`decode_references`), and so is what escaping and the last pass make of a code point
together (`translate_escape`). So HTML shows the text of a source, between calls and in a subscript
or superscript (`Engine.html_shows_text`). The text may hold halves of pairs that stand alone: each
is a code point of its own.
-/

namespace Sigil.Html

open CodeUnit (isLeading isTrailing isAscii)

/-! ## One code -/

/-- A tag or reference is read up to the unit that ends it. -/
theorem decodeFrom_append (first : CodeUnit) (pending : Text) {body : Text} {last : CodeUnit}
    (hlast : last = if first = 0x26 then 0x3B else 0x3E) (hbody : last ∉ body) (rest : Text) :
    decodeFrom (first :: pending) (body ++ last :: rest) =
      decodeMarkup (first :: pending ++ body ++ [last]) ++ decode rest := by
  induction body generalizing pending with
  | nil =>
      rw [List.nil_append, decodeFrom, if_pos hlast, List.append_nil]
      rfl
  | cons u body ih =>
      rw [List.mem_cons, not_or] at hbody
      rw [List.cons_append, decodeFrom, if_neg (hlast ▸ Ne.symm hbody.1), List.cons_append,
        ih (pending ++ [u]) hbody.2]
      simp

/-- A unit that begins no tag and no reference stands for itself. -/
theorem decode_cons {u : CodeUnit} (hamp : u ≠ 0x26) (hlt : u ≠ 0x3C) (rest : Text) :
    decode (u :: rest) = u :: decode rest := by
  rw [decode, decodeFrom, if_neg (not_or.mpr ⟨hamp, hlt⟩)]
  rfl

/-- The code is read back as the text, whatever stands behind it. -/
def IsCode (code t : Text) : Prop := ∀ rest, decode (code ++ rest) = t ++ decode rest

/-- A unit that is not reserved is a code of itself. -/
theorem isCode_unit {u : CodeUnit} (hamp : u ≠ 0x26) (hlt : u ≠ 0x3C) : IsCode [u] [u] :=
  decode_cons hamp hlt

/-- A complete tag or reference is a code of what it means. -/
theorem isCode_markup {first last : CodeUnit} (body : Text)
    (hfirst : (first, last) = (0x26, 0x3B) ∨ (first, last) = (0x3C, 0x3E)) (hbody : last ∉ body) :
    IsCode (first :: body ++ [last]) (decodeMarkup (first :: body ++ [last])) := by
  intro rest
  have hlast : last = if first = 0x26 then 0x3B else 0x3E := by
    rcases hfirst with h | h <;> cases h <;> rfl
  have hbegins : first = 0x26 ∨ first = 0x3C := by
    rcases hfirst with h | h <;> cases h
    · exact .inl rfl
    · exact .inr rfl
  have hread := decodeFrom_append first [] hlast hbody rest
  rw [List.cons_append, List.cons_append, List.append_assoc, decode, decodeFrom, if_pos hbegins]
  exact hread

/-- A numeric reference means the number that its digits spell. -/
theorem decodeMarkup_numeric (digits : Text) :
    decodeMarkup (0x26 :: 0x23 :: 0x78 :: digits ++ [0x3B]) =
      Text.ofCodePoint (Text.hexValue digits) := by
  have hnamed : ∀ t ∈ [Text.ofString "<br>", "&lt;", "&gt;", "&amp;", "&quot;"],
      0x26 :: 0x23 :: 0x78 :: digits ++ [0x3B] ≠ t := by
    intro t ht heq
    have hstart : ∀ t ∈ [Text.ofString "<br>", "&lt;", "&gt;", "&amp;", "&quot;"],
        t.take 2 ≠ [0x26, 0x23] := by decide
    exact hstart t ht (heq ▸ rfl)
  simp only [List.forall_mem_cons] at hnamed
  obtain ⟨hbr, hlt, hgt, hamp, hquot, -⟩ := hnamed
  have hstart : Text.startsWith "&#x" (0x26 :: 0x23 :: 0x78 :: digits ++ [0x3B]) = true := rfl
  have hdigits : ((0x26 :: 0x23 :: 0x78 :: digits ++ [0x3B]).drop 3).dropLast = digits :=
    List.dropLast_concat
  rw [decodeMarkup, if_neg hbr, if_neg hlt, if_neg hgt, if_neg hamp, if_neg hquot, if_pos hstart,
    hdigits]

/-- A numeric reference is a code of its code point. -/
theorem isCode_reference (c : Nat) : IsCode (reference c) (Text.ofCodePoint c) := by
  have hlast : (0x3B : CodeUnit) ∉ Text.hex c := by
    intro hmem
    exact absurd (Text.isHexDigit_of_mem_hex hmem) (by decide)
  have hbody : (0x3B : CodeUnit) ∉ 0x23 :: 0x78 :: Text.hex c := by
    simpa using hlast
  have hreference : reference c = 0x26 :: (0x23 :: 0x78 :: Text.hex c) ++ [0x3B] := rfl
  have hmarkup : decodeMarkup (0x26 :: (0x23 :: 0x78 :: Text.hex c) ++ [0x3B]) =
      Text.ofCodePoint c := by
    rw [decodeMarkup_numeric, Text.hexValue_hex]
  rw [hreference, ← hmarkup]
  exact isCode_markup _ (.inl rfl) hbody

/-- Codes one after another are read back one after another. -/
theorem decode_flatMap {f : Nat → Text} {points : List Nat}
    (h : ∀ c ∈ points, IsCode (f c) (Text.ofCodePoint c)) :
    decode (points.flatMap f) = Text.ofCodePoints points := by
  induction points with
  | nil => rfl
  | cons c points ih =>
      rw [List.forall_mem_cons] at h
      rw [List.flatMap_cons, h.1, ih h.2]
      rfl

/-- A text that is written code point by code point is read back as itself. -/
theorem decode_mapPoints {f : Nat → Text} (h : ∀ c, IsCode (f c) (Text.ofCodePoint c)) (t : Text) :
    decode (t.mapPoints f) = t := by
  rw [Text.mapPoints, decode_flatMap fun c _ => h c, Text.ofCodePoints_codePoints]

/-- References to the code points of a text are read back as the text. -/
theorem decode_references (t : Text) : decode (references t) = t :=
  decode_mapPoints isCode_reference t

/-! ## Escaped text behind the last pass -/

/-- What escaping and the last pass make of a code point. -/
def writtenPoint (c : Nat) : Text :=
  if c < 128 then translate (escape [UInt16.ofNat c]) else reference c

theorem writtenPoint_of_isAscii {u : CodeUnit} (h : u.isAscii = true) :
    writtenPoint u.toNat = translate (escapeUnit u) := by
  rw [writtenPoint, if_pos (CodeUnit.isAscii_iff.mp h), UInt16.ofNat_toNat, escape,
    List.flatMap_singleton]

/-- A code point that is not ASCII is written as a reference by the last pass. -/
theorem translatePoint_eq_writtenPoint {c : Nat} (h : 128 ≤ c) :
    translatePoint c = writtenPoint c := by
  rw [translatePoint, if_neg (by omega), if_neg (by omega), writtenPoint, if_neg (by omega)]

/-- Only ASCII units are reserved. -/
theorem escapeUnit_of_not_isAscii {u : CodeUnit} (h : u.isAscii = false) : escapeUnit u = [u] := by
  have hne : ∀ v : CodeUnit, v.isAscii = true → u ≠ v := by
    rintro v hv rfl
    rw [h] at hv
    cases hv
  rw [escapeUnit, if_neg (hne 0x26 rfl), if_neg (hne 0x3C rfl), if_neg (hne 0x3E rfl),
    if_neg (hne 0x22 rfl)]

/-- An ASCII unit is escaped to ASCII text. -/
theorem isAscii_escapeUnit {u : CodeUnit} (h : u.isAscii = true) :
    escapeUnit u ≠ [] ∧ ∀ v ∈ escapeUnit u, v.isAscii = true := by
  rw [← List.all_eq_true]
  unfold escapeUnit
  split
  · decide
  split
  · decide
  split
  · decide
  split
  · decide
  · simpa using h

/-- Escaping leaves the second half of a pair at the beginning of a text, and brings none there. -/
theorem exists_of_escape_eq_cons {t rest : Text} {v : CodeUnit} (h : escape t = v :: rest)
    (hv : v.isTrailing = true) : ∃ behind, t = v :: behind := by
  cases t with
  | nil => cases h
  | cons u t =>
      rw [escape, List.flatMap_cons] at h
      cases hu : u.isAscii with
      | false =>
          rw [escapeUnit_of_not_isAscii hu] at h
          exact ⟨t, congrArg (· :: t) (List.cons.inj h).1⟩
      | true =>
          obtain ⟨hne, hascii⟩ := isAscii_escapeUnit hu
          obtain ⟨w, more, hmore⟩ := List.exists_cons_of_ne_nil hne
          rw [hmore] at h hascii
          have hwv : w = v := (List.cons.inj h).1
          have htrailing :=
            CodeUnit.isTrailing_eq_false_of_isAscii (hascii w (List.mem_cons_self ..))
          rw [hwv, hv] at htrailing
          cases htrailing

/-- A unit that is not half of a pair with the next is written by itself. -/
theorem translate_escape_cons {u : CodeUnit} {t : Text}
    (h : ¬(u.isLeading = true ∧ ∃ v rest, t = v :: rest ∧ v.isTrailing = true)) :
    translate (escape (u :: t)) = writtenPoint u.toNat ++ translate (escape t) := by
  have hescape : escape (u :: t) = escapeUnit u ++ escape t := List.flatMap_cons
  rw [hescape]
  cases hu : u.isAscii with
  | true =>
      rw [writtenPoint_of_isAscii hu]
      exact Text.mapPoints_ascii_append translatePoint (isAscii_escapeUnit hu).2 (escape t)
  | false =>
      have hpoint : 128 ≤ u.toNat := by
        rw [Bool.eq_false_iff, Ne, CodeUnit.isAscii_iff] at hu
        omega
      rw [escapeUnit_of_not_isAscii hu, translate, Text.mapPoints, List.singleton_append,
        Text.codePoints_cons_unpaired, List.flatMap_cons, translatePoint_eq_writtenPoint hpoint]
      · rfl
      · rintro ⟨hleading, v, rest, heq, hv⟩
        obtain ⟨behind, rfl⟩ := exists_of_escape_eq_cons heq hv
        exact h ⟨hleading, v, behind, rfl, hv⟩

/-- Escaping and the last pass together write a text code point by code point. -/
theorem translate_escape (t : Text) : translate (escape t) = t.mapPoints writtenPoint := by
  rw [Text.mapPoints]
  fun_induction Text.codePoints t with
  | case1 => rfl
  | case2 u =>
      have hcons : translate (escape [u]) = writtenPoint u.toNat ++ translate (escape []) := by
        refine translate_escape_cons ?_
        rintro ⟨-, v, rest, heq, -⟩
        cases heq
      rw [hcons, List.flatMap_singleton]
      exact List.append_nil _
  | case3 u v rest hpair ih =>
      rw [Bool.and_eq_true] at hpair
      have hhalf : ∀ w : CodeUnit, w.isLeading = true ∨ w.isTrailing = true →
          escapeUnit w = [w] := by
        intro w hw
        refine escapeUnit_of_not_isAscii ?_
        rw [Bool.eq_false_iff]
        intro hascii
        rw [CodeUnit.isLeading_eq_false_of_isAscii hascii,
          CodeUnit.isTrailing_eq_false_of_isAscii hascii] at hw
        rcases hw with hw | hw <;> cases hw
      have hescape : escape (u :: v :: rest) = u :: v :: escape rest := by
        rw [escape, List.flatMap_cons, List.flatMap_cons, hhalf u (.inl hpair.1),
          hhalf v (.inr hpair.2)]
        rfl
      have hpoint : 128 ≤ u.pairPoint v := by
        unfold CodeUnit.pairPoint
        omega
      rw [hescape, translate, Text.mapPoints, Text.codePoints_pair hpair.1 hpair.2,
        List.flatMap_cons, List.flatMap_cons, translatePoint_eq_writtenPoint hpoint, ← ih]
      rfl
  | case4 u v rest hpair ih =>
      rw [translate_escape_cons, ih, List.flatMap_cons]
      rintro ⟨hleading, w, more, heq, hw⟩
      obtain ⟨rfl, rfl⟩ := List.cons.inj heq
      rw [hleading, hw] at hpair
      exact hpair rfl

/-- What is written of a code point is a code of it. -/
theorem isCode_writtenPoint (c : Nat) : IsCode (writtenPoint c) (Text.ofCodePoint c) := by
  by_cases hc : c < 128
  · -- a line break and the four reserved units have codes of their own
    have hkinds : ∀ c < 128, c ∈ [0x0A, 0x26, 0x3C, 0x3E, 0x22] ∨
        writtenPoint c = [UInt16.ofNat c] ∧ UInt16.ofNat c ≠ 0x26 ∧ UInt16.ofNat c ≠ 0x3C := by
      decide +kernel
    rcases hkinds c hc with hnamed | ⟨hwritten, hamp, hlt⟩
    · simp only [List.mem_cons, List.not_mem_nil, or_false] at hnamed
      rcases hnamed with rfl | rfl | rfl | rfl | rfl
      · exact isCode_markup "br" (.inr rfl) (by decide)
      · exact isCode_markup "amp" (.inl rfl) (by decide)
      · exact isCode_markup "lt" (.inl rfl) (by decide)
      · exact isCode_markup "gt" (.inl rfl) (by decide)
      · exact isCode_markup "quot" (.inl rfl) (by decide)
    · rw [hwritten, Text.ofCodePoint, if_pos (by omega)]
      exact isCode_unit hamp hlt
  · rw [writtenPoint, if_neg hc]
    exact isCode_reference c

/-- Escaped text that has gone through the last pass is read back as the text. -/
theorem decode_translate_escape (t : Text) : decode (translate (escape t)) = t := by
  rw [translate_escape]
  exact decode_mapPoints isCode_writtenPoint t

end Sigil.Html

namespace Sigil.Engine

/-- HTML is read back as the text of the source. Any text, spelled between calls with its dollar
signs escaped, is written out as HTML that is read back as the text. Any text but the empty one,
spelled as the argument of a subscript or a superscript, is written out in its element as HTML that
is read back as the text. The text may hold halves of pairs that stand alone. -/
theorem html_shows_text (strict : Bool) (reg : Registry) (gs : List Glossary)
    (strictness : Option Bool) (t : Text) :
    let e := (create strict reg).withGlossaries gs
    let options : Options := ⟨strictness, Html.escape⟩
    (∃ out, e.parse .html (Piece.literal t).spell options = .ok out ∧ Html.decode out = t) ∧
      (t ≠ [] → ∃ inside, Html.decode inside = t ∧
        e.parse .html (Text.callOf "sub" t) options = .ok ("<sub>" ++ inside ++ "</sub>") ∧
        e.parse .html (Text.callOf "sup" t) options = .ok ("<sup>" ++ inside ++ "</sup>")) := by
  intro e options
  have houtput : ∀ fragments, (e.target .html).output fragments =
      Html.translate (Fragment.concat fragments) := output_withGlossaries strict reg gs .html
  have hdecode := Html.decode_translate_escape t
  constructor
  · have hnil : (options.manner (e.target .html)).escape [] = [] := rfl
    obtain ⟨fragments, heval, hconcat⟩ := Target.concat_of_literal hnil t
    refine ⟨Html.translate (Html.escape t), ?_, hdecode⟩
    refine bind_eq_ok_iff.mpr ⟨fragments, heval, ?_⟩
    rw [houtput, hconcat]
    rfl
  · intro ht
    have hescape : (options.manner (e.target .html)).EscapesUnits :=
      Manner.escapesUnits (.inr rfl)
    have hunits : (t.flatMap fun u => options.escape [u]) = Html.escape t := (hescape t).symm
    have hcall : ∀ {name description front back : Text},
        { name, description, render := .enclose front back } ∈ Backend.definitions .html →
          name.isName = true → (front ++ back).IsFixed Html.translatePoint →
          e.parse .html (Text.callOf name t) options =
            .ok (front ++ Html.translate (Html.escape t) ++ back) := by
      intro name description front back hd hname hfixed
      obtain ⟨hknown, hinvoke⟩ := invoke_enclose strict reg gs hd
      have hparse := Target.parse_callOf hname ht hknown options (hinvoke t _)
      rw [houtput, Fragment.concat_singleton, hunits, Html.translate,
        hfixed.mapPoints_enclose] at hparse
      exact hparse
    exact ⟨Html.translate (Html.escape t), hdecode,
      hcall (List.mem_of_getElem? (i := 5) rfl) rfl (by decide),
      hcall (List.mem_of_getElem? (i := 6) rfl) rfl (by decide)⟩

/-- Reserved units, a line end, a letter beyond the basic plane and units that mean something in an
argument. -/
theorem html_shows_text_sample :
    let e := create false .empty
    let options : Options := ⟨none, Html.escape⟩
    let t : Text := "<$,)&\n𝑥;\\"
    t ≠ [] ∧ Text.callOf "sub" t = "$sub(<\\$\\,\\)&\n𝑥;\\\\)" ∧
      e.parse .html (Text.callOf "sub" t) options =
        .ok "<sub>&lt;$,)&amp;<br>&#x1d465;;\\</sub>" ∧
      ∃ inside, Html.decode inside = t ∧
        e.parse .html (Text.callOf "sub" t) options = .ok ("<sub>" ++ inside ++ "</sub>") := by
  intro e options t
  have ht : t ≠ [] := by decide
  have hspelled : Text.callOf "sub" t = "$sub(<\\$\\,\\)&\n𝑥;\\\\)" := by decide +kernel
  have hresult : (e.parse .html (Text.callOf "sub" t) options).toOption =
      some "<sub>&lt;$,)&amp;<br>&#x1d465;;\\</sub>" := by
    decide +kernel
  obtain ⟨inside, hdecode, hsub, -⟩ := (html_shows_text false .empty [] none t).2 ht
  exact ⟨ht, hspelled, eq_ok_of_toOption hresult, inside, hdecode, hsub⟩

end Sigil.Engine
