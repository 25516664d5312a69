import Sigil.Text.CaseData
import Sigil.Text.Basic

/-!
# Lower case

Lowering works code point by code point with two exceptions. A dotted capital I becomes a small i
followed by a combining dot. A capital sigma at the end of a word becomes a final sigma: a letter
comes before it, none comes after it, and characters that case ignores are passed over both ways.
-/

namespace Sigil.Text

/-- The code point lies in one of the ranges. -/
def inRanges (ranges : List (Nat × Nat)) (c : Nat) : Bool :=
  ranges.any fun (first, last) => first ≤ c && c ≤ last

/-- The lower case of a single code point. -/
def lowerPoint (c : Nat) : Nat :=
  match loweringRuns.find? fun (first, last, stride, _) =>
      first ≤ c && c ≤ last && (c - first) % stride == 0 with
  | some (_, _, _, offset) => (c + offset).toNat
  | none => c

/-- The first code point that case does not ignore is cased. -/
def meetsLetter (points : List Nat) : Bool :=
  match points.dropWhile (inRanges ignorableRanges) with
  | [] => false
  | c :: _ => inRanges casedRanges c

/-- Lower the code points that follow `before`, which is given last first. -/
def lowerPoints (before : List Nat) : List Nat → List Nat
  | [] => []
  | c :: rest =>
    let lowered :=
      if c = 0x130 then [0x69, 0x307]
      else if c = 0x3A3 then [if meetsLetter before && !meetsLetter rest then 0x3C2 else 0x3C3]
      else [lowerPoint c]
    lowered ++ lowerPoints (c :: before) rest

/-- The text in lower case. -/
def lower (t : Text) : Text := ofCodePoints (lowerPoints [] t.codePoints)

end Sigil.Text
