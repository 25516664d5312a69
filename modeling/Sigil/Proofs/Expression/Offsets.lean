import Sigil.Proofs.Expression.Reading
import Sigil.Proofs.Expression.Steps

/-!
# Offsets of a scan

The places at which evaluation can give up: behind the name of a call, behind the parenthesis that
closes one, and at the flaw of the source. They appear in ascending order and within the source
(`Mode.scan_offsets`), and every fault of a run is at one of them (`Target.run_fault_offset`), as
long as calls do not report parse faults of their own.
-/

namespace Sigil

/-- The offset that a token carries. -/
def Token.stop? : Token → Option Nat
  | .call _ stop => some stop
  | .close stop => some stop
  | _ => none

namespace Scan

/-- The offsets of the tokens and of the flaw behind them. -/
def offsets (s : Scan) : List Nat :=
  s.tokens.filterMap Token.stop? ++ s.flaw.toList.map Prod.snd

/-- Joining literals loses no offset. -/
theorem offsets_cons (token : Token) (s : Scan) :
    (s.cons token).offsets = token.stop?.toList ++ s.offsets := by
  obtain ⟨tokens, flaw⟩ := s
  cases token with
  | literal t =>
      cases tokens with
      | nil => rfl
      | cons next rest => cases next <;> rfl
  | _ => rfl

/-- The offsets of a scan begin with that of its first token, if it carries one. -/
theorem offsets_mk_cons (token : Token) (rest : List Token) (flaw : Option (Flaw × Nat)) :
    (⟨token :: rest, flaw⟩ : Scan).offsets =
      token.stop?.toList ++ (⟨rest, flaw⟩ : Scan).offsets := by
  cases hstop : token.stop? <;> simp [offsets, hstop]

theorem mem_offsets_of_stop {token : Token} {rest : List Token} {flaw : Option (Flaw × Nat)}
    {stop : Nat} (h : token.stop? = some stop) :
    stop ∈ (⟨token :: rest, flaw⟩ : Scan).offsets := by
  rw [offsets_mk_cons, h]
  simp

theorem mem_offsets_of_tail (token : Token) {rest : List Token} {flaw : Option (Flaw × Nat)}
    {offset : Nat} (h : offset ∈ (⟨rest, flaw⟩ : Scan).offsets) :
    offset ∈ (⟨token :: rest, flaw⟩ : Scan).offsets := by
  rw [offsets_mk_cons]
  exact List.mem_append_right _ h

/-- The offsets ascend and lie between two bounds. -/
def Between (low high : Nat) (offsets : List Nat) : Prop :=
  offsets.Pairwise (· ≤ ·) ∧ ∀ offset ∈ offsets, low ≤ offset ∧ offset ≤ high

/-- An offset in front of others. -/
theorem Between.cons {low middle high offset : Nat} {offsets : List Nat}
    (h : Between middle high offsets) (hlow : low ≤ offset) (hmiddle : offset ≤ middle)
    (hhigh : middle ≤ high) : Between low high (offset :: offsets) := by
  refine ⟨List.pairwise_cons.mpr ⟨fun o ho => ?_, h.1⟩, fun o ho => ?_⟩
  · have hmem := h.2 o ho
    omega
  · rcases List.mem_cons.mp ho with rfl | hmem
    · omega
    · have hmem' := h.2 o hmem
      omega

/-- Bounds may be widened. -/
theorem Between.mono {low middle high : Nat} {offsets : List Nat} (h : Between middle high offsets)
    (hlow : low ≤ middle) : Between low high offsets := by
  refine ⟨h.1, fun o ho => ?_⟩
  have hmem := h.2 o ho
  omega

end Scan

namespace Mode

open Scan

/-- The end of a source brings up offsets at the end alone. -/
theorem finish_offsets (mode : Mode) (here : Nat) :
    Between here here (mode.finish here).offsets := by
  have hone : Between here here [here] := by simp [Between]
  have htwo : Between here here [here, here] := by simp [Between]
  cases mode with
  | text => simp [finish, Scan.offsets, Between]
  | textEscape => exact ⟨.nil, by simp [finish, Scan.offsets, Token.stop?]⟩
  | name depth part =>
      cases part with
      | nil => exact hone
      | cons v part => exact htwo
  | argument depth => exact hone
  | argumentEscape depth => exact hone

/-- The offset of a token is at the unit that completes it or behind it. -/
theorem read_stop {mode : Mode} {here : Nat} {u : CodeUnit} {token : Token} {stop : Nat}
    (htoken : (mode.read here u).1 = some token) (hstop : token.stop? = some stop) :
    here ≤ stop ∧ stop ≤ here + 1 := by
  have hread := mode.transition_read here u
  rw [htoken] at hread
  generalize (mode.read here u).2 = result at hread
  cases hread with
  | openCall | notOpen | closeOutermost | closeInner =>
      cases hstop
      omega
  | _ => cases hstop

/-- The offset of a flaw is at the unit that brings it to light or behind it, and not in front of
the token that the unit completes. -/
theorem read_flaw {mode : Mode} {here : Nat} {u : CodeUnit} {flaw : Flaw × Nat}
    (hflaw : (mode.read here u).2 = .error flaw) :
    here ≤ flaw.2 ∧ flaw.2 ≤ here + 1 ∧
      ∀ token stop, (mode.read here u).1 = some token → token.stop? = some stop →
        stop ≤ flaw.2 := by
  have hread := mode.transition_read here u
  rw [hflaw] at hread
  generalize (mode.read here u).1 = token? at hread ⊢
  cases hread with
  | noName => exact ⟨Nat.le_refl here, Nat.le_succ here, nofun⟩
  | notOpen =>
      refine ⟨Nat.le_succ here, Nat.le_refl (here + 1), ?_⟩
      intro token stop htoken hstop
      cases htoken
      cases hstop
      exact Nat.le_succ here

/-- What stands behind a unit has its offsets behind that of the token which the unit completes. -/
theorem behind_offsets (mode : Mode) {here : Nat} (u : CodeUnit) {rest : Text}
    (ih : ∀ next : Mode, Between (here + 1) (here + 1 + rest.length)
      (next.scan (here + 1) rest).offsets) :
    ∃ middle, here ≤ middle ∧ middle ≤ here + 1 + rest.length ∧
      (∀ token stop, (mode.read here u).1 = some token → token.stop? = some stop →
        here ≤ stop ∧ stop ≤ middle) ∧
      Between middle (here + 1 + rest.length)
        (behind (mode.read here u).2 (here + 1) rest).offsets := by
  cases hresult : (mode.read here u).2 with
  | ok next =>
      exact ⟨here + 1, by omega, by omega, fun token stop => read_stop, ih next⟩
  | error flaw =>
      -- nothing is read behind a flaw, so its offset is the only one
      obtain ⟨hlow, hhigh, hflaw⟩ := read_flaw hresult
      have hnil : Between (here + 1) (here + 1 + rest.length) [] := ⟨.nil, by simp⟩
      refine ⟨flaw.2, hlow, by omega, fun token stop htoken hstop => ?_,
        hnil.cons (Nat.le_refl _) hhigh (by omega)⟩
      exact ⟨(read_stop htoken hstop).1, hflaw token stop htoken hstop⟩

/-- The offsets of a scan ascend, and lie between where the scan begins and the end. -/
theorem scan_offsets (mode : Mode) (here : Nat) (rest : Text) :
    Between here (here + rest.length) (mode.scan here rest).offsets := by
  induction rest generalizing mode here with
  | nil => exact finish_offsets mode here
  | cons u rest ih =>
      obtain ⟨middle, hlow, hhigh, htoken, hrest⟩ :=
        behind_offsets mode u fun next => ih next (here + 1)
      rw [scan_cons, List.length_cons, Nat.add_comm rest.length, ← Nat.add_assoc]
      cases hread : (mode.read here u).1 with
      | none => exact hrest.mono hlow
      | some token =>
          simp only [offsets_cons]
          cases hstop : token.stop? with
          | none => exact hrest.mono hlow
          | some stop =>
              obtain ⟨hstart, hend⟩ := htoken token stop hread hstop
              exact hrest.cons hstart hend hhigh

end Mode

/-- The offsets of a whole source ascend and lie within it. -/
theorem Scan.ofText_offsets (source : Text) :
    Between 0 source.length (Scan.ofText source).offsets := by
  have h := Mode.text.scan_offsets 0 source
  rwa [Nat.zero_add] at h

/-- The offsets of a source from a call on ascend. -/
theorem Scan.ofCall_offsets (source : Text) (offset : Nat) :
    (Scan.ofCall source offset).offsets.Pairwise (· ≤ ·) := by
  unfold Scan.ofCall
  split
  · simp [Scan.offsets]
  split
  · exact (Mode.scan_offsets _ _ _).1
  · simp [Scan.offsets]

namespace Target

/-- Calls report no parse faults of their own. -/
def NeverParses (target : Target) : Prop :=
  ∀ name keys texts fault, target.invoke name keys texts ≠ .error (.parse fault)

variable {target : Target} {manner : Manner} {source : Text}

/-- A call that cannot be rendered is given up behind its parenthesis. -/
theorem NeverParses.renderCall_fault (htarget : target.NeverParses) {stop : Nat} {callee : Text}
    {args : List Argument} {fault : ParseFault}
    (h : target.renderCall manner source stop callee args = .error (.parse fault)) :
    fault.offset = stop := by
  rcases renderCall_eq_error h with ⟨cause, heq, -⟩ | ⟨hinvoke, -⟩
  · cases heq
    rfl
  · exact absurd hinvoke (htarget _ _ _ _)

/-- A step gives up at the offset of its token alone. -/
theorem NeverParses.step_fault (htarget : target.NeverParses) {p : Progress} {token : Token}
    {fault : ParseFault} (h : target.step manner source p token = .error (.parse fault)) :
    ∃ stop : Nat, token.stop? = some stop ∧ fault.offset = stop := by
  cases rejects_of_step h with
  | call => exact ⟨_, rfl, rfl⟩
  | close _ _ _ _ hfault => exact ⟨_, rfl, htarget.renderCall_fault hfault⟩

/-- A run gives up at one of the offsets of its scan. -/
theorem NeverParses.run_fault_offset (htarget : target.NeverParses) {s : Scan} {p : Progress}
    {fault : ParseFault} (h : target.run manner source s p = .error (.parse fault)) :
    ∃ offset ∈ s.offsets, fault.offset = offset := by
  obtain ⟨tokens, flaw⟩ := s
  induction tokens generalizing p with
  | nil =>
      cases flaw with
      | none => cases h
      | some flaw =>
          cases h
          exact ⟨flaw.2, by simp [Scan.offsets], rfl⟩
  | cons token rest ih =>
      rw [run_mk_cons] at h
      cases hstep : target.step manner source p token with
      | error fault' =>
          rw [hstep] at h
          cases h
          obtain ⟨stop, hstop, hoffset⟩ := htarget.step_fault hstep
          exact ⟨stop, Scan.mem_offsets_of_stop hstop, hoffset⟩
      | ok p' =>
          rw [hstep] at h
          obtain ⟨offset, hmem, hoffset⟩ := ih h
          exact ⟨offset, Scan.mem_offsets_of_tail token hmem, hoffset⟩

/-- Running up to the end of a call gives up at one of the offsets of the scan. -/
theorem NeverParses.runCall_fault_offset (htarget : target.NeverParses) {tokens : List Token}
    {flaw : Option (Flaw × Nat)} {p : Progress} {fault : ParseFault}
    (h : target.runCall manner source flaw p tokens = .error (.parse fault)) :
    ∃ offset ∈ (⟨tokens, flaw⟩ : Scan).offsets, fault.offset = offset := by
  induction tokens generalizing p with
  | nil =>
      cases flaw with
      | none => cases h
      | some flaw =>
          cases h
          exact ⟨flaw.2, by simp [Scan.offsets], rfl⟩
  | cons token rest ih =>
      rw [runCall_cons] at h
      cases hstep : target.step manner source p token with
      | error fault' =>
          rw [hstep] at h
          cases h
          obtain ⟨stop, hstop, hoffset⟩ := htarget.step_fault hstep
          exact ⟨stop, Scan.mem_offsets_of_stop hstop, hoffset⟩
      | ok p' =>
          rw [hstep] at h
          simp only [bind, Except.bind] at h
          cases hdone : p'.completed? token with
          | some result =>
              rw [hdone] at h
              cases h
          | none =>
              rw [hdone] at h
              obtain ⟨offset, hmem, hoffset⟩ := ih h
              exact ⟨offset, Scan.mem_offsets_of_tail token hmem, hoffset⟩

end Target

end Sigil
