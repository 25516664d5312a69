import Sigil.Proofs.Expression.Spelling

/-!
# Text in one piece

How a source is evaluated that spells a call with a key for its only argument: the group renders the
call from the key as it is, and what it renders to is the only fragment (`Target.parse_callOf`). The
same text between calls is the only fragment itself (`Target.concat_of_literal`).
-/

namespace Sigil

open CodeUnit

/-- The source of a call with a key for its only argument. -/
def Text.callOf (callee key : Text) : Text := (Piece.call callee [key.map .unit]).spell

namespace Target

variable {target : Target} {manner : Manner} {source : Text}

/-- Running over the spelling of plain text in an argument adds the text. -/
theorem run_units (key : Text) (fragments : List Fragment) (c : OpenCall) (outer : List OpenCall)
    (depth here : Nat) (rest : Text) :
    target.run manner source
        ((Mode.argument depth).scan here (Node.spellArgument (key.map .unit) ++ rest))
        ⟨fragments, c :: outer⟩ =
      target.run manner source
        ((Mode.argument depth).scan (here + (Node.spellArgument (key.map .unit)).length) rest)
        ⟨fragments, c.append key (key.flatMap fun u => manner.escape [u]) :: outer⟩ := by
  induction key generalizing c here with
  | nil =>
      rw [List.flatMap_nil, OpenCall.append_nil]
      rfl
  | cons u key ih =>
      rw [List.map_cons, Node.spellArgument, List.append_assoc, Mode.scan_argument_unit,
        run_cons _ (by simp)]
      show target.run manner source _ ⟨fragments, c.append [u] (manner.escape [u]) :: outer⟩ = _
      rw [ih, OpenCall.append_append, List.length_append, Nat.add_assoc]
      rfl

/-- A call with a key for its only argument is evaluated to what the group renders it to. The output
text of the argument is escaped unit by unit. -/
theorem evaluate_callOf {callee key rendered : Text} (hcallee : callee.isName = true)
    (hkey : key ≠ []) (hknown : target.known callee = true)
    (hinvoke : target.invoke callee [key] [key.flatMap fun u => manner.escape [u]] =
      .ok rendered) :
    target.evaluate manner (Text.callOf callee key) = .ok [⟨.call, rendered⟩] := by
  have hrender : ∀ stop, target.renderCall manner (Text.callOf callee key) stop callee
      [⟨key, key.flatMap fun u => manner.escape [u]⟩] = .ok rendered := by
    intro stop
    simp [renderCall, hknown, hinvoke]
  have hargs : ∀ text, ((({ name := callee } : OpenCall).append key text).completeArgument).args =
      [⟨key, text⟩] := by
    intro text
    simp [OpenCall.append, OpenCall.completeArgument, hkey]
  have hscan : Scan.ofText (Text.callOf callee key) = (Mode.name 0 []).scan 1
      (callee ++ leftParen :: (Node.spellArgument (key.map .unit) ++ [rightParen])) := by
    rw [Scan.ofText, Text.callOf, ← List.append_nil (Piece.spell _), Mode.scan_text_call]
    rfl
  rw [evaluate_eq_run, hscan, run_open hcallee fun _ => hknown, run_units,
    Mode.scan_argument_close, run_cons _ (by simp), step_close, hargs]
  simp only [OpenCall.append]
  rw [hrender]
  rfl

/-- A call with a key for its only argument is written out as what the group renders it to, behind
the last pass. -/
theorem parse_callOf {callee key rendered : Text} (hcallee : callee.isName = true)
    (hkey : key ≠ []) (hknown : target.known callee = true) (options : Options)
    (hinvoke : target.invoke callee [key] [key.flatMap fun u => options.escape [u]] =
      .ok rendered) :
    target.parse (Text.callOf callee key) options =
      .ok (target.output [⟨.call, rendered⟩]) := by
  rw [parse, evaluate_callOf hcallee hkey hknown hinvoke]
  rfl

/-- The spelling of literal text evaluates to the text, escaped as a whole. -/
theorem concat_of_literal (hnil : manner.escape [] = []) (t : Text) :
    ∃ fragments, target.evaluate manner (Piece.literal t).spell = .ok fragments ∧
      Fragment.concat fragments = manner.escape t := by
  by_cases ht : t = []
  · subst ht
    exact ⟨[], rfl, hnil.symm⟩
  · have hscan : Scan.ofText (Piece.literal t).spell = ⟨[.literal t], none⟩ := by
      have hliteral : Mode.text.scan 0 ((Piece.literal t).spell ++ []) = ⟨[.literal t], none⟩ :=
        Mode.scan_text_literal 0 ht nofun
      rwa [List.append_nil] at hliteral
    refine ⟨[⟨.literal, manner.escape t⟩], ?_, List.append_nil _⟩
    rw [evaluate_eq_run, hscan]
    rfl

end Target

end Sigil
