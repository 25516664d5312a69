import Sigil.Proofs.Text.WellFormed
import Sigil.Text.Case

/-!
# Lowering to ASCII

Lowering an ASCII text makes its capital letters small (`Text.lower_of_isAscii`). No text beyond
ASCII becomes a word of small ASCII letters, except one with a Kelvin sign, which becomes a `k`. So
a text is lowered to a word without that letter exactly if it is the word with its letters in any
case (`Text.lower_eq_iff`).
-/

namespace Sigil

namespace CodeUnit

/-- The unit, a capital ASCII letter made small. -/
def lowerAscii (u : CodeUnit) : CodeUnit := if 0x41 ≤ u ∧ u ≤ 0x5A then u + 0x20 else u

/-- A small ASCII letter other than `k`. -/
def isPlainSmall (u : CodeUnit) : Bool := 0x61 ≤ u && u ≤ 0x7A && u != 0x6B

theorem isAscii_of_isPlainSmall {u : CodeUnit} (h : u.isPlainSmall = true) : u.isAscii = true := by
  simp only [isPlainSmall, Bool.and_eq_true, decide_eq_true_eq, UInt16.le_iff_toNat_le,
    UInt16.reduceToNat] at h
  rw [isAscii_iff]
  omega

/-- Only ASCII units become ASCII. -/
theorem isAscii_of_lowerAscii {u : CodeUnit} (h : u.lowerAscii.isAscii = true) :
    u.isAscii = true := by
  unfold lowerAscii at h
  split at h
  · rename_i hcapital
    simp only [UInt16.le_iff_toNat_le, UInt16.reduceToNat] at hcapital
    rw [isAscii_iff]
    omega
  · exact h

end CodeUnit

namespace Text

open CodeUnit

/-- The text is the word with its ASCII letters in any case. -/
def IsInAnyCase (t word : Text) : Prop := t.map lowerAscii = word

/-! ## Code points -/

/-- All runs but the first begin beyond ASCII. -/
theorem loweringRuns_tail : ∀ run ∈ loweringRuns.tail, 0x80 ≤ run.1 := by
  decide +kernel

/-- In ASCII capital letters alone are lowered. -/
theorem lowerPoint_of_lt {c : Nat} (h : c < 0x80) :
    lowerPoint c = if 0x41 ≤ c ∧ c ≤ 0x5A then c + 0x20 else c := by
  have hruns : loweringRuns = (0x41, 0x5A, 1, 32) :: loweringRuns.tail := rfl
  rw [lowerPoint, hruns, List.find?_cons]
  by_cases hcapital : 0x41 ≤ c ∧ c ≤ 0x5A
  · simp only [hcapital, decide_true, Nat.mod_one, BEq.rfl, Bool.and_self, and_self, if_true]
    omega
  · have hnot : (decide (0x41 ≤ c) && decide (c ≤ 0x5A)) = false := by
      rw [← Bool.decide_and, decide_eq_false hcapital]
    simp only [hnot, Bool.false_and, if_neg hcapital]
    rw [List.find?_eq_none.mpr]
    intro run hrun
    have hfirst := loweringRuns_tail run hrun
    simp only [Bool.and_eq_true, decide_eq_true_eq]
    omega

/-- ASCII code points are lowered as their units are. -/
theorem lowerPoint_of_isAscii {u : CodeUnit} (h : u.isAscii = true) :
    ofCodePoint (lowerPoint u.toNat) = [u.lowerAscii] := by
  have hpoints : ∀ c < 0x80, ofCodePoint (if 0x41 ≤ c ∧ c ≤ 0x5A then c + 0x20 else c) =
      [lowerAscii (UInt16.ofNat c)] := by
    decide +kernel
  have hu := isAscii_iff.mp h
  rw [lowerPoint_of_lt hu, hpoints u.toNat hu, UInt16.ofNat_toNat]

/-- The spelling of a code point beyond ASCII is not ASCII. -/
theorem exists_not_isAscii_ofCodePoint {c : Nat} (hascii : 0x80 ≤ c) (hc : c < 0x110000) :
    ∃ u ∈ ofCodePoint c, u.isAscii = false := by
  have hunit : ∀ n, 0x80 ≤ n → n < 0x10000 → isAscii (UInt16.ofNat n) = false := by
    intro n hascii hn
    rw [Bool.eq_false_iff, Ne, isAscii_iff, UInt16.toNat_ofNat', Nat.mod_eq_of_lt hn]
    omega
  rw [ofCodePoint]
  split
  · exact ⟨_, List.mem_singleton_self _, hunit c hascii (by assumption)⟩
  · have hhigh : (c - 0x10000) / 0x400 < 0x400 := by omega
    exact ⟨_, List.mem_cons_self .., hunit _ (by omega) (by omega)⟩

/-- Runs other than that of the ASCII capitals lead beyond ASCII, or to the letter `k`. -/
theorem loweringRuns_beyond : ∀ run ∈ loweringRuns, run = (0x41, 0x5A, 1, 32) ∨
    (run.1 = run.2.1 ∧ (run.1 : Int) + run.2.2.2 = 0x6B) ∨
    (0x80 ≤ (run.1 : Int) + run.2.2.2 ∧ (run.2.1 : Int) + run.2.2.2 < 0x110000) := by
  decide +kernel

/-- A code point beyond ASCII is not lowered to a small ASCII letter other than `k`. -/
theorem not_isPlainSmall_lowerPoint {c : Nat} (hascii : 0x80 ≤ c) (hc : c < 0x110000) :
    ∃ u ∈ ofCodePoint (lowerPoint c), u.isPlainSmall = false := by
  have hbeyond : ∀ p, 0x80 ≤ p → p < 0x110000 → ∃ u ∈ ofCodePoint p, u.isPlainSmall = false := by
    intro p hascii hp
    obtain ⟨u, hmem, hu⟩ := exists_not_isAscii_ofCodePoint hascii hp
    refine ⟨u, hmem, Bool.eq_false_iff.mpr fun hsmall => ?_⟩
    rw [isAscii_of_isPlainSmall hsmall] at hu
    cases hu
  unfold lowerPoint
  split
  · rename_i first last stride offset hfind
    have hrun := List.find?_some hfind
    simp only [Bool.and_eq_true, decide_eq_true_eq] at hrun
    rcases loweringRuns_beyond _ (List.mem_of_find?_eq_some hfind) with heq | ⟨hone, hkelvin⟩ | hout
    · cases heq
      omega
    · dsimp only at hone hkelvin
      have hk : ((c : Int) + offset).toNat = 0x6B := by omega
      rw [hk]
      exact ⟨0x6B, by decide, by decide⟩
    · dsimp only at hout
      exact hbeyond _ (by omega) (by omega)
  · exact hbeyond c hascii hc

/-! ## Texts -/

/-- An ASCII text is lowered unit by unit. -/
theorem lower_of_isAscii {t : Text} (h : ∀ u ∈ t, u.isAscii = true) :
    t.lower = t.map lowerAscii := by
  have hpoints : ∀ before, ofCodePoints (lowerPoints before (t.map UInt16.toNat)) =
      t.map lowerAscii := by
    induction t with
    | nil => exact fun _ => rfl
    | cons u t ih =>
        intro before
        rw [List.forall_mem_cons] at h
        have hu := isAscii_iff.mp h.1
        have hrest := ih h.2 (u.toNat :: before)
        rw [List.map_cons, lowerPoints, if_neg (by omega), if_neg (by omega), ofCodePoints,
          List.flatMap_append, List.flatMap_singleton, lowerPoint_of_isAscii h.1]
        exact congrArg (u.lowerAscii :: ·) hrest
  rw [lower, codePoints_of_ascii h, hpoints]

/-- Code points that are lowered to small ASCII letters other than `k` are ASCII. -/
theorem isAscii_of_lowerPoints {points before : List Nat} (hpoints : ∀ c ∈ points, c < 0x110000)
    (h : ∀ u ∈ ofCodePoints (lowerPoints before points), u.isPlainSmall = true) :
    ∀ c ∈ points, c < 0x80 := by
  induction points generalizing before with
  | nil => exact List.forall_mem_nil _
  | cons c points ih =>
      rw [List.forall_mem_cons] at hpoints
      rw [lowerPoints, ofCodePoints, List.flatMap_append, List.forall_mem_append] at h
      obtain ⟨hfirst, hrest⟩ := h
      rw [List.forall_mem_cons]
      refine ⟨Nat.lt_of_not_le fun hascii => ?_, ih hpoints.2 hrest⟩
      -- the two code points that are not lowered by themselves leave ASCII as well
      have hbad : ∃ u ∈ List.flatMap ofCodePoint (if c = 0x130 then [0x69, 0x307] else
          if c = 0x3A3 then [if meetsLetter before && !meetsLetter points then 0x3C2 else 0x3C3]
          else [lowerPoint c]), u.isPlainSmall = false := by
        split
        · exact ⟨0x307, by decide, by decide⟩
        split
        · split
          · exact ⟨0x3C2, by decide, by decide⟩
          · exact ⟨0x3C3, by decide, by decide⟩
        · rw [List.flatMap_singleton]
          exact not_isPlainSmall_lowerPoint hascii hpoints.1
      obtain ⟨u, hmem, hu⟩ := hbad
      rw [hfirst u hmem] at hu
      cases hu

/-- A text whose code points are ASCII has ASCII units. -/
theorem isAscii_of_codePoints {t : Text} (h : ∀ c ∈ t.codePoints, c < 0x80) :
    ∀ u ∈ t, u.isAscii = true := by
  intro u hu
  rw [← ofCodePoints_codePoints t] at hu
  obtain ⟨c, hc, hmem⟩ := List.mem_flatMap.mp hu
  rw [isAscii_iff, mem_ofCodePoint_of_ascii (h c hc) hmem]
  exact h c hc

/-- A text is lowered to a word of small letters other than `k` if it is the word with its letters
in any case. -/
theorem lower_eq_iff {t word : Text} (hword : ∀ u ∈ word, u.isPlainSmall = true) :
    t.lower = word ↔ t.IsInAnyCase word := by
  constructor
  · rintro rfl
    have hascii := isAscii_of_codePoints (isAscii_of_lowerPoints t.codePoints_lt hword)
    exact (lower_of_isAscii hascii).symm
  · rintro rfl
    refine lower_of_isAscii fun u hu => isAscii_of_lowerAscii ?_
    exact isAscii_of_isPlainSmall (hword _ (List.mem_map_of_mem hu))

end Text

end Sigil
