import Sigil.Text.Blank
import Sigil.Text.Numeral

/-!
# Code points of composed texts

Cutting a text into code points commutes with putting texts together, unless the seam joins two
halves of a pair (`Text.codePoints_append`). An ASCII text has its units for code points, so it
stays as it is where none of them is replaced (`Text.IsFixed`).
-/

namespace Sigil

namespace CodeUnit

/-- The unit is an ASCII character. -/
def isAscii (u : CodeUnit) : Bool := u < 0x80

theorem isAscii_iff {u : CodeUnit} : u.isAscii = true ↔ u.toNat < 0x80 := by
  simp only [isAscii, decide_eq_true_eq, UInt16.lt_iff_toNat_lt, UInt16.reduceToNat]

/-- An ASCII character is no half of a pair. -/
theorem isLeading_eq_false_of_isAscii {u : CodeUnit} (h : u.isAscii = true) :
    u.isLeading = false := by
  rw [isAscii_iff] at h
  rw [Bool.eq_false_iff, Ne, isLeading_iff]
  omega

theorem isTrailing_eq_false_of_isAscii {u : CodeUnit} (h : u.isAscii = true) :
    u.isTrailing = false := by
  rw [isAscii_iff] at h
  rw [Bool.eq_false_iff, Ne, isTrailing_iff]
  omega

end CodeUnit

namespace Text

open CodeUnit

/-- A unit that begins no pair is a code point of its own. -/
theorem codePoints_cons {u : CodeUnit} (h : u.isLeading = false) (t : Text) :
    codePoints (u :: t) = u.toNat :: codePoints t := by
  cases t with
  | nil => rfl
  | cons v t => simp [codePoints, h]

/-- A pair is one code point. -/
theorem codePoints_pair {u v : CodeUnit} (hu : u.isLeading = true) (hv : v.isTrailing = true)
    (t : Text) : codePoints (u :: v :: t) = u.pairPoint v :: codePoints t := by
  simp [codePoints, hu, hv]

/-- A unit that is not half of a pair with the next is a code point of its own. -/
theorem codePoints_cons_unpaired {u : CodeUnit} {t : Text}
    (h : ¬(u.isLeading = true ∧ ∃ v rest, t = v :: rest ∧ v.isTrailing = true)) :
    codePoints (u :: t) = u.toNat :: codePoints t := by
  cases t with
  | nil => rfl
  | cons v t =>
      rw [codePoints, if_neg]
      rw [Bool.and_eq_true]
      exact fun hpair => h ⟨hpair.1, v, t, rfl, hpair.2⟩

/-- No code point exceeds that of the last pair. -/
theorem codePoints_lt (t : Text) : ∀ c ∈ t.codePoints, c < 0x110000 := by
  fun_induction codePoints t with
  | case1 => exact List.forall_mem_nil _
  | case2 u =>
      have hu : u.toNat < 0x10000 := u.toNat_lt
      rw [List.forall_mem_singleton]
      omega
  | case3 u v rest hpair ih =>
      rw [Bool.and_eq_true, isLeading_iff, isTrailing_iff] at hpair
      rw [List.forall_mem_cons]
      refine ⟨?_, ih⟩
      unfold pairPoint
      omega
  | case4 u v rest _ ih =>
      have hu : u.toNat < 0x10000 := u.toNat_lt
      rw [List.forall_mem_cons]
      exact ⟨by omega, ih⟩

/-- The code points of two texts are those of the texts put together, unless the second text begins
with the second half of a pair. -/
theorem codePoints_append (s : Text) {t : Text} (h : ∀ u ∈ t.head?, u.isTrailing = false) :
    codePoints (s ++ t) = codePoints s ++ codePoints t := by
  fun_induction codePoints s with
  | case1 => rfl
  | case2 u =>
      refine codePoints_cons_unpaired ?_
      rintro ⟨-, v, rest, rfl, hv⟩
      rw [h v rfl] at hv
      cases hv
  | case3 u v rest hpair ih =>
      rw [Bool.and_eq_true] at hpair
      rw [List.cons_append, List.cons_append, codePoints_pair hpair.1 hpair.2, ih]
      rfl
  | case4 u v rest hpair ih =>
      rw [List.cons_append, List.cons_append, codePoints, if_neg hpair, ← List.cons_append, ih]
      rfl

/-- An ASCII text has its units for code points. -/
theorem codePoints_of_ascii {t : Text} (h : ∀ u ∈ t, u.isAscii = true) :
    codePoints t = t.map UInt16.toNat := by
  induction t with
  | nil => rfl
  | cons u t ih =>
      rw [codePoints_cons (isLeading_eq_false_of_isAscii (h u (by simp))),
        ih fun v hv => h v (by simp [hv])]
      rfl

/-- Replacing code points commutes with putting texts together. -/
theorem mapPoints_append (f : Nat → Text) (s : Text) {t : Text}
    (h : ∀ u ∈ t.head?, u.isTrailing = false) :
    mapPoints f (s ++ t) = mapPoints f s ++ mapPoints f t := by
  rw [mapPoints, codePoints_append s h, List.flatMap_append]
  rfl

/-- An ASCII text stays as it is when no code point of it is replaced. -/
theorem mapPoints_of_ascii {f : Nat → Text} {t : Text} (h : ∀ u ∈ t, u.isAscii = true)
    (hf : ∀ u ∈ t, f u.toNat = [u]) : mapPoints f t = t := by
  rw [mapPoints, codePoints_of_ascii h, List.flatMap_map]
  induction t with
  | nil => rfl
  | cons u t ih =>
      rw [List.flatMap_cons, hf u (by simp),
        ih (fun v hv => h v (by simp [hv])) fun v hv => hf v (by simp [hv])]
      rfl

/-- A text that begins with an ASCII text is mapped part by part, since the seam joins no pair. -/
theorem mapPoints_ascii_append (f : Nat → Text) {s : Text} (h : ∀ u ∈ s, u.isAscii = true)
    (t : Text) : mapPoints f (s ++ t) = mapPoints f s ++ mapPoints f t := by
  induction s with
  | nil => rfl
  | cons u s ih =>
      have hu : u.isLeading = false := isLeading_eq_false_of_isAscii (h u (by simp))
      have hs := ih fun v hv => h v (by simp [hv])
      simp only [mapPoints] at hs ⊢
      rw [List.cons_append, codePoints_cons hu, codePoints_cons hu, List.flatMap_cons, hs,
        List.flatMap_cons, List.append_assoc]

/-- The text is ASCII, and `f` replaces no code point of it. -/
def IsFixed (f : Nat → Text) (t : Text) : Prop := ∀ u ∈ t, u.isAscii = true ∧ f u.toNat = [u]

-- along the text: there is an instance that goes through all code units
instance (f : Nat → Text) (t : Text) : Decidable (t.IsFixed f) := List.decidableBAll _ t

theorem IsFixed.mapPoints_eq {f : Nat → Text} {t : Text} (h : t.IsFixed f) : mapPoints f t = t :=
  mapPoints_of_ascii (fun u hu => (h u hu).1) fun u hu => (h u hu).2

theorem IsFixed.mapPoints_append {f : Nat → Text} {s : Text} (h : s.IsFixed f) (t : Text) :
    mapPoints f (s ++ t) = s ++ mapPoints f t := by
  rw [mapPoints_ascii_append f fun u hu => (h u hu).1, h.mapPoints_eq]

/-- What stands in front of a text and behind it stays as it is. -/
theorem IsFixed.mapPoints_enclose {f : Nat → Text} {front back : Text}
    (h : (front ++ back).IsFixed f) (t : Text) :
    mapPoints f (front ++ t ++ back) = front ++ mapPoints f t ++ back := by
  obtain ⟨hfront, hback⟩ : front.IsFixed f ∧ back.IsFixed f := List.forall_mem_append.mp h
  have hseam : ∀ u ∈ back.head?, u.isTrailing = false := by
    intro u hu
    exact isTrailing_eq_false_of_isAscii (hback u (List.mem_of_mem_head? hu)).1
  rw [Text.mapPoints_append f _ hseam, hfront.mapPoints_append, hback.mapPoints_eq]

/-- Replacing code points by ASCII text that is not replaced again does so once and for all. -/
theorem mapPoints_mapPoints {f : Nat → Text}
    (hf : ∀ c, (f c).IsFixed f) (t : Text) : mapPoints f (mapPoints f t) = mapPoints f t := by
  have hfixed : (mapPoints f t).IsFixed f := by
    intro u hu
    obtain ⟨c, -, hc⟩ := List.mem_flatMap.mp hu
    exact hf c u hc
  exact hfixed.mapPoints_eq

/-- The spelling of an ASCII code point is its unit. -/
theorem mem_ofCodePoint_of_ascii {c : Nat} (h : c < 128) {u : CodeUnit} (hu : u ∈ ofCodePoint c) :
    u.toNat = c := by
  rw [ofCodePoint, if_pos (by omega), List.mem_singleton] at hu
  rw [hu, UInt16.toNat_ofNat']
  omega

/-! ## Widths -/

/-- Blanks begin no pair and end none, so texts between blanks are as wide as they are apart. -/
theorem width_append_spaces_append (s : Text) {n : Nat} (hn : 0 < n) (t : Text) :
    width (s ++ spaces n ++ t) = width s + n + width t := by
  have hblanks : ∀ n, width (spaces n ++ t) = n + width t := by
    intro n
    induction n with
    | zero => rw [Nat.zero_add]; rfl
    | succ n ih =>
        rw [width] at ih ⊢
        rw [spaces, List.replicate_succ, List.cons_append, codePoints_cons (by decide),
          List.length_cons, ← spaces, ih]
        omega
  have hseam : ∀ u ∈ (spaces n ++ t).head?, u.isTrailing = false := by
    intro u hu
    obtain ⟨n, rfl⟩ := Nat.exists_eq_add_of_lt hn
    rw [Nat.zero_add, spaces, List.replicate_succ, List.cons_append] at hu
    cases hu
    decide
  rw [List.append_assoc, Nat.add_assoc, ← hblanks]
  simp only [width, codePoints_append s hseam, List.length_append]

theorem width_append_spaces (s : Text) (n : Nat) : width (s ++ spaces n) = width s + n := by
  cases n with
  | zero => rw [spaces, List.replicate_zero, List.append_nil]; rfl
  | succ n =>
      have h := width_append_spaces_append s n.succ_pos []
      rwa [List.append_nil] at h

/-- An ASCII text is as wide as it is long. -/
theorem width_of_ascii {t : Text} (h : ∀ u ∈ t, u.isAscii = true) : width t = t.length := by
  rw [width, codePoints_of_ascii h, List.length_map]

/-- So is a text in which one unit is repeated that begins no pair. -/
theorem width_replicate {u : CodeUnit} (h : u.isLeading = false) (n : Nat) :
    width (List.replicate n u) = n := by
  rw [width]
  induction n with
  | zero => rfl
  | succ n ih => rw [List.replicate_succ, codePoints_cons h, List.length_cons, ih]

/-! ## Blanks -/

/-- What is cut off at the end of a text is blank. -/
theorem exists_trimEnd_append (t : Text) :
    ∃ blanks, (∀ u ∈ blanks, u.isBlank = true) ∧ t = t.trimEnd ++ blanks := by
  refine ⟨(t.reverse.takeWhile isBlank).reverse, ?_, ?_⟩
  · intro u hu
    exact List.all_eq_true.mp List.all_takeWhile u (List.mem_reverse.mp hu)
  · rw [trimEnd, ← List.reverse_append, List.takeWhile_append_dropWhile, List.reverse_reverse]

/-! ## Digits -/

/-- A digit in base sixteen, in lower case. -/
def isHexDigit (u : CodeUnit) : Bool := u.isDigit || (0x61 ≤ u && u ≤ 0x66)

/-- Numbers in base sixteen are spelled with digits. -/
theorem isHexDigit_of_mem_hex {n : Nat} {u : CodeUnit} (h : u ∈ hex n) : isHexDigit u = true := by
  have hdigit : ∀ d < 16, isHexDigit (ofChar d.digitChar) = true := by decide
  induction n using Nat.strongRecOn with
  | ind n ih =>
      by_cases hn : n < 16
      · rw [hex, Nat.toDigits_of_lt_base hn] at h
        rw [List.mem_singleton.mp h]
        exact hdigit n hn
      · rw [hex, Nat.toDigits_of_base_le (by decide) (by omega), List.map_append,
          List.mem_append] at h
        rcases h with h | h
        · exact ih (n / 16) (by omega) h
        · rw [List.mem_singleton.mp h]
          exact hdigit (n % 16) (by omega)

theorem isAscii_of_isHexDigit {u : CodeUnit} (h : isHexDigit u = true) : u.isAscii = true := by
  rw [isAscii_iff]
  simp only [isHexDigit, CodeUnit.isDigit, Bool.or_eq_true, Bool.and_eq_true, decide_eq_true_eq,
    UInt16.le_iff_toNat_le, UInt16.reduceToNat] at h
  omega

/-- The digits of a number in base sixteen have the number for their value. -/
theorem hexValue_hex (n : Nat) : hexValue (hex n) = n := by
  have hdigit : ∀ d < 16, hexDigitValue (ofChar d.digitChar) = d := by decide
  induction n using Nat.strongRecOn with
  | ind n ih =>
      by_cases hn : n < 16
      · rw [hex, Nat.toDigits_of_lt_base hn]
        show 16 * 0 + hexDigitValue (ofChar n.digitChar) = n
        rw [hdigit n hn]
        omega
      · have hfront : hexValue ((Nat.toDigits 16 (n / 16)).map ofChar) = n / 16 :=
          ih (n / 16) (by omega)
        rw [hex, Nat.toDigits_of_base_le (by decide) (by omega), List.map_append, hexValue,
          List.foldl_append]
        show 16 * hexValue _ + hexDigitValue (ofChar (n % 16).digitChar) = n
        rw [hfront, hdigit (n % 16) (by omega)]
        omega

theorem hex_ne_nil (n : Nat) : hex n ≠ [] := by
  simp [hex, Nat.toDigits_ne_nil]

end Text

end Sigil
