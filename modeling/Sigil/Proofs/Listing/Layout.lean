import Sigil.Listing.Layout

/-!
# Layouts fit their pages

Every page whose width is not negative is laid out (`Width.room_eq_ok`), with a tidy number of pairs
to a row and a gap between them that leaves a full row within the width (`Layout.ofRoom_fits`).
-/

namespace Sigil.Listing

/-! ## Widths -/

namespace Width

/-- The width is a number of columns from zero on, or unbounded. -/
def isNonnegative : Width → Bool
  | columns _ | unbounded => true
  | belowZero _ | undefined => false

/-- The number of columns that bounds a line, if one does. -/
def limit? : Width → Option Nat
  | columns n => some n
  | _ => none

/-- A page that is not narrower than nothing has room, whatever is to be laid out. -/
theorem room_eq_ok {w : Width} (h : w.isNonnegative = true) (pair : Nat) :
    w.room pair = .ok w.limit? := by
  cases w with
  | columns n => rfl
  | unbounded => rfl
  | belowZero steps => cases h
  | undefined => cases h

/-- A natural number is rounded to a finite number or overflows; in both cases it means a width. -/
theorem isNonnegative_ofNat (n : Nat) : (ofNumber (Number.ofNat n)).isNonnegative = true := by
  have hrounded : ∀ (m : Nat) (e : Int),
      (ofNumber (if Number.maxExponent < e then .infinite false
        else .finite false m e)).isNonnegative = true := by
    intro m e
    split
    · rfl
    · rfl
  simp only [Number.ofNat, Number.ofRatio]
  split
  · rfl
  -- the mantissa may have been carried over into the next exponent
  · split
    · exact hrounded _ _
    · exact hrounded _ _

end Width

/-! ## Layouts -/

theorem tidy_le (n : Nat) : tidy n ≤ n := by
  unfold tidy
  split <;> omega

/-- The tidy numbers from one on. -/
theorem tidy_mem {n : Nat} (h : 1 ≤ n) : tidy n ∈ [1, 2, 3, 4, 8, 12, 16] := by
  simp only [tidy, maxColumns, List.mem_cons, List.not_mem_nil, or_false]
  split <;> omega

namespace Layout

/-- The columns of a row of `n` pairs. -/
def rowWidth (l : Layout) (n : Nat) : Nat := n * l.pair + (n - 1) * l.gap

/-- A shorter row takes no more columns. -/
theorem rowWidth_mono (l : Layout) {m n : Nat} (h : m ≤ n) : l.rowWidth m ≤ l.rowWidth n :=
  Nat.add_le_add (Nat.mul_le_mul_right _ h) (Nat.mul_le_mul_right _ (Nat.sub_le_sub_right h 1))

/-- A layout of a number of entries is tidy, and its full rows are within the limit unless a single
pair is not. -/
structure Fits (l : Layout) (entries : Nat) (limit? : Option Nat) : Prop where
  columns_mem : l.columns ∈ [1, 2, 3, 4, 8, 12, 16]
  columns_le : l.columns ≤ max 1 entries
  gap_pos : 1 ≤ l.gap
  gap_bounds : 1 < l.columns → 2 ≤ l.gap ∧ l.gap ≤ 6
  rowWidth_le : ∀ width ∈ limit?, l.rowWidth l.columns ≤ max width l.pair

theorem Fits.columns_pos {l : Layout} {entries : Nat} {limit? : Option Nat}
    (h : l.Fits entries limit?) : 1 ≤ l.columns := by
  have hmem := h.columns_mem
  simp only [List.mem_cons, List.not_mem_nil, or_false] at hmem
  omega

/-- What remains of a width beside `n` pairs is shared out among the gaps between them. If each pair
came with two blanks, every gap gets two of them at least. -/
theorem gap_of_room {width n pair : Nat} (hn : 1 < n) (hroom : n * (pair + 2) ≤ width) :
    2 ≤ (width - n * pair) / (n - 1) ∧
      n * pair + (n - 1) * ((width - n * pair) / (n - 1)) ≤ width := by
  have hpairs : n * (pair + 2) = n * pair + n * 2 := Nat.mul_add n pair 2
  have hshared : (n - 1) * ((width - n * pair) / (n - 1)) ≤ width - n * pair :=
    Nat.mul_div_le _ _
  refine ⟨?_, by omega⟩
  rw [Nat.le_div_iff_mul_le (by omega)]
  omega

/-- Laying out leaves the widths of keys and codes as they are. -/
theorem ofRoom_widths (limit? : Option Nat) (keyWidth codeWidth entries : Nat) :
    (ofRoom limit? keyWidth codeWidth entries).keyWidth = keyWidth ∧
      (ofRoom limit? keyWidth codeWidth entries).codeWidth = codeWidth := by
  cases limit? with
  | none => exact ⟨rfl, rfl⟩
  | some width =>
      simp only [ofRoom]
      split
      · exact ⟨rfl, rfl⟩
      · exact ⟨rfl, rfl⟩

/-- A layout with a single pair to a row fits every page. -/
theorem fits_one (limit? : Option Nat) (keyWidth codeWidth entries : Nat) {gap : Nat}
    (hgap : 1 ≤ gap) : Fits ⟨1, keyWidth, codeWidth, gap⟩ entries limit? := by
  refine ⟨List.mem_cons_self .., Nat.le_max_left 1 entries, hgap, ?_, ?_⟩
  · intro hcolumns
    exact absurd hcolumns (Nat.lt_irrefl 1)
  · intro width _
    show 1 * (keyWidth + 1 + codeWidth) + (1 - 1) * gap ≤ max width (keyWidth + 1 + codeWidth)
    omega

/-- A layout with several pairs to a row fits a page if a full row is within the limit. -/
theorem fits_many {limit? : Option Nat} {keyWidth codeWidth entries n gap : Nat}
    (hmem : n ∈ [1, 2, 3, 4, 8, 12, 16]) (hentries : n ≤ max 1 entries) (hgap : 2 ≤ gap)
    (hrow : ∀ width ∈ limit?, n * (keyWidth + 1 + codeWidth) + (n - 1) * gap ≤ width) :
    Fits ⟨n, keyWidth, codeWidth, min gap maxGap⟩ entries limit? := by
  have hcap : 2 ≤ min gap maxGap ∧ min gap maxGap ≤ 6 := by
    unfold maxGap
    omega
  refine ⟨hmem, hentries, Nat.le_of_succ_le hcap.1, fun _ => hcap, ?_⟩
  intro width hwidth
  have hgaps : (n - 1) * min gap maxGap ≤ (n - 1) * gap :=
    Nat.mul_le_mul_left _ (Nat.min_le_left gap maxGap)
  have hfull := hrow width hwidth
  show n * (keyWidth + 1 + codeWidth) + (n - 1) * min gap maxGap ≤ _
  omega

/-- A layout with a tidy number of pairs to a row fits a page if a full row of several is within the
limit. -/
theorem fits_tidy {limit? : Option Nat} {keyWidth codeWidth entries n gap : Nat} (hn : 1 ≤ n)
    (hentries : n ≤ max 1 entries)
    (hseveral : 1 < tidy n → 2 ≤ gap ∧ ∀ width ∈ limit?,
      tidy n * (keyWidth + 1 + codeWidth) + (tidy n - 1) * gap ≤ width) :
    Fits ⟨tidy n, keyWidth, codeWidth, if tidy n = 1 then 2 else min gap maxGap⟩ entries
      limit? := by
  have hmem := tidy_mem hn
  split
  · rename_i hsingle
    rw [hsingle]
    exact fits_one limit? keyWidth codeWidth entries (by decide)
  · rename_i hmany
    have hpairs : 1 < tidy n := by
      simp only [List.mem_cons, List.not_mem_nil, or_false] at hmem
      omega
    obtain ⟨hgap, hrow⟩ := hseveral hpairs
    exact fits_many hmem (Nat.le_trans (tidy_le n) hentries) hgap hrow

/-- Every layout fits its page. -/
theorem ofRoom_fits (limit? : Option Nat) (keyWidth codeWidth entries : Nat) :
    (ofRoom limit? keyWidth codeWidth entries).Fits entries limit? := by
  have hentries := Nat.le_max_left 1 entries
  cases limit? with
  | none =>
      have hfits : Fits ⟨tidy (max 1 entries), keyWidth, codeWidth,
          if tidy (max 1 entries) = 1 then 2 else min maxGap maxGap⟩ entries none :=
        fits_tidy hentries (Nat.le_refl _) fun _ => ⟨by decide, nofun⟩
      exact hfits
  | some width =>
      simp only [ofRoom]
      split
      -- a page too narrow for one pair
      · exact fits_one (some width) keyWidth codeWidth entries (Nat.le_refl 1)
      · rename_i hfitting
        have hone : 1 ≤ min (width / (keyWidth + 1 + codeWidth + 2)) (max 1 entries) :=
          Nat.le_min.mpr ⟨Nat.one_le_iff_ne_zero.mpr hfitting, hentries⟩
        refine fits_tidy hone (Nat.min_le_right ..) fun hmany => ?_
        have hroom : tidy (min (width / (keyWidth + 1 + codeWidth + 2)) (max 1 entries)) *
            (keyWidth + 1 + codeWidth + 2) ≤ width :=
          Nat.le_trans (Nat.mul_le_mul_right _ (Nat.le_trans (tidy_le _) (Nat.min_le_left ..)))
            (Nat.div_mul_le_self width _)
        obtain ⟨hgap, hrow⟩ := gap_of_room hmany hroom
        refine ⟨hgap, ?_⟩
        intro width' hwidth
        cases hwidth
        exact hrow

end Layout

end Sigil.Listing
