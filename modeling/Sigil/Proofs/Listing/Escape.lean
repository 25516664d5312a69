import Mathlib.Algebra.Group.Nat.Defs
import Sigil.Listing.Page
import Sigil.Proofs.Text.WellFormed

/-!
# Codes in ASCII are read back

The four ranges of code points are spelled with a letter of their own each and as many digits as the
last of the range takes, so a spelling says itself where it ends (`unescape_escapePoint_append`).
Spellings are printable (`isPrintable_of_mem_escape`), and those of codes without a backslash are
read back as the codes (`unescape_escape`).
-/

namespace Sigil

namespace CodeUnit

/-- The unit is a blank or a visible character of ASCII. -/
def isPrintable (u : CodeUnit) : Bool := 0x20 ≤ u && u ≤ 0x7E

theorem isPrintable_iff {u : CodeUnit} :
    u.isPrintable = true ↔ 0x20 ≤ u.toNat ∧ u.toNat ≤ 0x7E := by
  simp only [isPrintable, Bool.and_eq_true, decide_eq_true_eq, UInt16.le_iff_toNat_le,
    UInt16.reduceToNat]

theorem isAscii_of_isPrintable {u : CodeUnit} (h : u.isPrintable = true) : u.isAscii = true := by
  rw [isPrintable_iff] at h
  rw [isAscii_iff]
  omega

end CodeUnit

namespace Text

open CodeUnit (ofChar isPrintable)

/-! ## Digits with zeros in front -/

theorem isHexDigit_of_mem_paddedHex {places n : Nat} {u : CodeUnit} (h : u ∈ paddedHex places n) :
    isHexDigit u = true := by
  rw [paddedHex, List.mem_append, List.mem_replicate] at h
  rcases h with ⟨-, rfl⟩ | h
  · rfl
  · exact isHexDigit_of_mem_hex h

/-- A number that fits in the places fills them. -/
theorem length_paddedHex {places n : Nat} (hplaces : 0 < places) (h : n < 16 ^ places) :
    (paddedHex places n).length = places := by
  have hle : (hex n).length ≤ places := by
    rw [hex, List.length_map]
    exact (Nat.length_toDigits_le_iff (by decide) hplaces).mpr h
  rw [paddedHex, List.length_append, List.length_replicate]
  omega

/-- Zeros in front do not change the value. -/
theorem hexValue_paddedHex (places n : Nat) : hexValue (paddedHex places n) = n := by
  have hzeros : ∀ k, hexValue (List.replicate k (ofChar '0')) = 0 := by
    intro k
    induction k with
    | zero => rfl
    | succ k ih => exact ih
  rw [hexValue, paddedHex, List.foldl_append, ← hexValue, hzeros]
  exact hexValue_hex n

theorem isPrintable_of_isHexDigit {u : CodeUnit} (h : isHexDigit u = true) :
    u.isPrintable = true := by
  rw [CodeUnit.isPrintable_iff]
  simp only [isHexDigit, CodeUnit.isDigit, Bool.or_eq_true, Bool.and_eq_true, decide_eq_true_eq,
    UInt16.le_iff_toNat_le, UInt16.reduceToNat] at h
  omega

end Text

namespace Listing

open CodeUnit

/-! ## Spellings of code points -/

/-- A printable code point is spelled by itself. Any other is spelled by a letter and as many digits
as the letter says, which are enough. -/
inductive Spells (c : Nat) : Text → Prop where
  | itself (hlow : 0x20 ≤ c) (hhigh : c < 0x7F) : Spells c [UInt16.ofNat c]
  | digits {letter : CodeUnit} {places : Nat} (hletter : letter.isPrintable = true)
      (hplaces : digitsBehind? letter = some places) (hpos : 0 < places) (hc : c < 16 ^ places) :
      Spells c (backslash :: letter :: Text.paddedHex places c)

/-- Eight digits are enough for every code point. -/
theorem spells_escapePoint {c : Nat} (h : c < 0x110000) : Spells c (escapePoint c) := by
  rw [escapePoint]
  split
  · rename_i hprintable
    rw [Text.ofCodePoint, if_pos (by omega)]
    exact .itself hprintable.1 hprintable.2
  split
  · exact .digits (by decide) (by decide) (by decide) (by omega)
  split
  · exact .digits (by decide) (by decide) (by decide) (by omega)
  · exact .digits (by decide) (by decide) (by decide) (by omega)

/-- A spelling is printable. -/
theorem Spells.isPrintable {c : Nat} {t : Text} (h : Spells c t) :
    ∀ u ∈ t, u.isPrintable = true := by
  cases h with
  | itself hlow hhigh =>
      rw [List.forall_mem_singleton, isPrintable_iff, UInt16.toNat_ofNat',
        Nat.mod_eq_of_lt (by omega)]
      omega
  | digits hletter =>
      rw [List.forall_mem_cons, List.forall_mem_cons]
      refine ⟨by decide, hletter, fun u hu => ?_⟩
      exact Text.isPrintable_of_isHexDigit (Text.isHexDigit_of_mem_paddedHex hu)

/-! ## Reading back -/

/-- Digits are read as their value. -/
theorem readHexFrom?_eq_some {digits : Text} (h : ∀ u ∈ digits, Text.isHexDigit u = true)
    (n : Nat) : readHexFrom? n digits =
      some (digits.foldl (fun n u => 16 * n + Text.hexDigitValue u) n) := by
  induction digits generalizing n with
  | nil => rfl
  | cons u digits ih =>
      rw [List.forall_mem_cons] at h
      have hdigit : hexDigit? u = some (Text.hexDigitValue u) := by
        have hu := h.1
        unfold hexDigit? Text.hexDigitValue
        split
        · rfl
        · rename_i hnot
          rw [if_pos]
          simpa [Text.isHexDigit, hnot] using hu
      rw [readHexFrom?, hdigit]
      exact ih h.2 _

/-- What is no backslash stands for itself. -/
theorem unescape_cons {u : CodeUnit} (h : u ≠ backslash) (rest : Text) :
    unescape (u :: rest) = u :: unescape rest := by
  rw [unescape, if_neg h]

/-- An escape is read up to its last digit. -/
theorem unescape_digits_append {letter : CodeUnit} {places c : Nat}
    (hplaces : digitsBehind? letter = some places) (hpos : 0 < places) (hc : c < 16 ^ places)
    (rest : Text) :
    unescape (backslash :: letter :: (Text.paddedHex places c ++ rest)) =
      Text.ofCodePoint c ++ unescape rest := by
  have hlength : (Text.paddedHex places c).length = places := Text.length_paddedHex hpos hc
  have hread : readHexFrom? 0 (Text.paddedHex places c) = some c := by
    rw [readHexFrom?_eq_some fun u hu => Text.isHexDigit_of_mem_paddedHex hu]
    exact congrArg some (Text.hexValue_paddedHex places c)
  have hescaped : escaped? (letter :: (Text.paddedHex places c ++ rest)) =
      some (c, places + 1) := by
    have htake : (Text.paddedHex places c ++ rest).take places = Text.paddedHex places c :=
      List.take_left' hlength
    have henough : places ≤ (Text.paddedHex places c ++ rest).length := by
      rw [List.length_append]
      omega
    simp only [escaped?, hplaces, if_pos henough, htake, hread, Option.map_some]
  rw [unescape, if_pos rfl, hescaped]
  show Text.ofCodePoint c ++ unescape ((Text.paddedHex places c ++ rest).drop places) = _
  rw [List.drop_left' hlength]

/-- The spelling of a code point other than the backslash is read as the code point, whatever
follows it. -/
theorem Spells.unescape_append {c : Nat} {t : Text} (h : Spells c t)
    (hbackslash : c ≠ backslash.toNat) (rest : Text) :
    unescape (t ++ rest) = Text.ofCodePoint c ++ unescape rest := by
  cases h with
  | itself hlow hhigh =>
      have hc : c < 0x10000 := by omega
      have hne : UInt16.ofNat c ≠ backslash := by
        intro heq
        have htoNat := congrArg UInt16.toNat heq
        rw [UInt16.toNat_ofNat', Nat.mod_eq_of_lt hc] at htoNat
        exact hbackslash htoNat
      rw [Text.ofCodePoint, if_pos hc]
      exact unescape_cons hne rest
  | digits _ hplaces hpos hc => exact unescape_digits_append hplaces hpos hc rest

/-! ## Spellings of codes -/

/-- Spellings are printable. -/
theorem isPrintable_of_mem_escape {t : Text} {u : CodeUnit} (h : u ∈ escape t) :
    u.isPrintable = true := by
  obtain ⟨c, hc, hu⟩ := List.mem_flatMap.mp h
  exact (spells_escapePoint (t.codePoints_lt c hc)).isPrintable u hu

/-- A code without a backslash is read back. -/
theorem unescape_escape {t : Text} (h : backslash ∉ t) : unescape (escape t) = t := by
  have hpoints : ∀ c ∈ t.codePoints, c < 0x110000 ∧ c ≠ backslash.toNat := by
    intro c hc
    refine ⟨t.codePoints_lt c hc, ?_⟩
    rintro rfl
    have hmem : backslash ∈ Text.ofCodePoints t.codePoints :=
      List.mem_flatMap.mpr ⟨_, hc, by decide⟩
    rw [Text.ofCodePoints_codePoints] at hmem
    exact h hmem
  have hread : unescape (t.codePoints.flatMap escapePoint) = Text.ofCodePoints t.codePoints := by
    generalize t.codePoints = points at hpoints
    induction points with
    | nil => rw [List.flatMap_nil, unescape]; rfl
    | cons c points ih =>
        rw [List.forall_mem_cons] at hpoints
        rw [List.flatMap_cons, (spells_escapePoint hpoints.1.1).unescape_append hpoints.1.2,
          ih hpoints.2]
        rfl
  exact hread.trans t.ofCodePoints_codePoints

/-- Codes are spelled in printable ASCII and read back. A spelling is as wide as it is long, which is
the width that an entry of a listing in ASCII takes. Spelling distributes over concatenation, where
no half stands alone behind the seam. Codes without a backslash are read back from their spellings,
so different ones have different spellings. -/
theorem escape_prints_and_reads_back (t : Text) :
    (∀ u ∈ escape t, 0x20 ≤ u ∧ u ≤ 0x7E) ∧
    (escape t).width = (escape t).length ∧
    (∀ reg r key, (Entry.of reg r true key t).shown = escape t ∧
      (Entry.of reg r true key t).width = (escape t).width) ∧
    (∀ t', t'.wellFormed = true → escape (t ++ t') = escape t ++ escape t') ∧
    (backslash ∉ t → unescape (escape t) = t ∧
      ∀ t', backslash ∉ t' → t ≠ t' → escape t ≠ escape t') := by
  have hwidth : (escape t).width = (escape t).length :=
    Text.width_of_ascii fun u hu => isAscii_of_isPrintable (isPrintable_of_mem_escape hu)
  refine ⟨?_, hwidth, fun reg r key => ⟨rfl, hwidth.symm⟩, ?_, ?_⟩
  · intro u hu
    have hprintable := isPrintable_of_mem_escape hu
    rw [isPrintable, Bool.and_eq_true, decide_eq_true_eq, decide_eq_true_eq] at hprintable
    exact hprintable
  · intro t' ht'
    exact Text.mapPoints_append escapePoint t (Text.wellFormed_iff.mp ht').isTrailing_head
  · intro ht
    refine ⟨unescape_escape ht, fun t' ht' hne heq => hne ?_⟩
    rw [← unescape_escape ht, heq, unescape_escape ht']

/-- Code points of all four ranges, each with a unit behind it that looks like one more digit. -/
theorem escape_prints_and_reads_back_sample :
    let t : Text := "~aéa→b𝑥f\t"
    let t' : Text := "~aéa→b𝑥e"
    backslash ∉ t ∧ backslash ∉ t' ∧ t ≠ t' ∧ t'.wellFormed = true ∧
      escape t = "~a\\xe9a\\u2192b\\U0001d465f\\x09" ∧ escape (t ++ t') = escape t ++ escape t' ∧
      unescape (escape t) = t ∧ escape t ≠ escape t' := by
  intro t t'
  have ht : backslash ∉ t := by decide
  have ht' : backslash ∉ t' := by decide
  have hne : t ≠ t' := by decide
  have hwhole : t'.wellFormed = true := by decide
  have hspelled : escape t = "~a\\xe9a\\u2192b\\U0001d465f\\x09" := by decide +kernel
  obtain ⟨-, -, -, happend, hback⟩ := escape_prints_and_reads_back t
  obtain ⟨hread, hinjective⟩ := hback ht
  exact ⟨ht, ht', hne, hwhole, hspelled, happend t' hwhole, hread, hinjective t' ht' hne⟩

end Listing

end Sigil
