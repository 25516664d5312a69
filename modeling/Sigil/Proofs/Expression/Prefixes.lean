import Sigil.Proofs.Expression.Acceptance
import Sigil.Proofs.Expression.Flaws

/-!
# Beginnings of a source

Where a source is given up, nothing behind that place was looked at: every other source that agrees
with it up to there, the unit at the place included, is given up there for the same cause
(`Target.NeverParses.run_fault_of_prefix`). A closing parenthesis is missing at the end of a source
alone, and then the source is the beginning of an expression (`Mode.missingClose_at_end`): an
escaped unit and as many parentheses as calls are open complete it.
-/

namespace Sigil

open CodeUnit Grammar

namespace Target

variable {target : Target} {manner : Manner} {source : Text} {p p' : Progress}

/-! ## Fragments do not enter faults -/

/-- A run leaves the fragments alone that are there. -/
theorem run_behind (front : List Fragment) (s : Scan) (p : Progress) :
    target.run manner source s (p.behind front) =
      (target.run manner source s p).map (Progress.behind front) := by
  rw [run, run, foldlM_step_behind]
  cases s.tokens.foldlM (target.step manner source) p with
  | error fault => rfl
  | ok p' => cases s.flaw <;> rfl

/-- Runs with the same open calls fail alike. -/
theorem run_eq_error_iff_of_calls {s : Scan} (h : p.calls = p'.calls) {fault : Fault} :
    target.run manner source s p = .error fault ↔
      target.run manner source s p' = .error fault := by
  have hbare : ∀ q : Progress, target.run manner source s q = .error fault ↔
      target.run manner source s ⟨[], q.calls⟩ = .error fault := by
    intro q
    have hq : q = (⟨[], q.calls⟩ : Progress).behind q.fragments := by
      rw [Progress.behind, List.append_nil]
    conv_lhs => rw [hq, run_behind]
    cases target.run manner source s ⟨[], q.calls⟩ <;> simp [Except.map]
  rw [hbare p, hbare p', h]

/-- A run takes a literal without fail. -/
theorem run_literal (t : Text) (rest : List Token) (flaw : Option (Flaw × Nat)) (p : Progress) :
    target.run manner source ⟨.literal t :: rest, flaw⟩ p =
      target.run manner source ⟨rest, flaw⟩
        { p with fragments := p.fragments ++ [⟨.literal, manner.escape t⟩] } :=
  run_mk_cons _ rest flaw p

/-- A run fails at its first token, or behind it. Whether a literal becomes one with another does
not matter, since literals do not fail. -/
theorem run_cons_eq_error_iff {token : Token} {s : Scan} {fault : Fault} :
    target.run manner source (s.cons token) p = .error fault ↔
      target.step manner source p token = .error fault ∨
        ∃ p', target.step manner source p token = .ok p' ∧
          target.run manner source s p' = .error fault := by
  obtain ⟨tokens, flaw⟩ := s
  have hapart : target.run manner source ⟨token :: tokens, flaw⟩ p = .error fault ↔
      target.step manner source p token = .error fault ∨
        ∃ p', target.step manner source p token = .ok p' ∧
          target.run manner source ⟨tokens, flaw⟩ p' = .error fault := by
    rw [run_mk_cons]
    exact bind_eq_error_iff
  cases token with
  | literal t =>
      cases tokens with
      | nil => exact hapart
      | cons next rest =>
          cases next with
          | literal t' =>
              -- the literal that is there changes nothing but fragments
              have hjoined : target.run manner source ⟨.literal (t ++ t') :: rest, flaw⟩ p =
                  .error fault ↔
                target.run manner source ⟨.literal t :: .literal t' :: rest, flaw⟩ p =
                  .error fault := by
                rw [run_literal, run_literal, run_literal]
                refine run_eq_error_iff_of_calls ?_
                rfl
              exact hjoined.trans hapart
          | _ => exact hapart
  | _ => exact hapart

end Target

/-! ## The same tokens in another source -/

/-- The fault in another source. -/
def Fault.inSource (source : Text) : Fault → Fault
  | parse e => parse { e with source }
  | fault => fault

namespace Target

variable {target : Target} {manner : Manner} {source : Text} {p p' : Progress}

/-- A call comes to the same in another source, which its faults name. -/
theorem NeverParses.renderCall_inSource (htarget : target.NeverParses) (source other : Text)
    (stop : Nat) (callee : Text) (args : List Argument) :
    target.renderCall manner other stop callee args =
      (target.renderCall manner source stop callee args).mapError (Fault.inSource other) := by
  simp only [renderCall]
  split
  · cases hinvoke : target.invoke callee (args.map Argument.key) (args.map Argument.text) with
    | ok rendered => rfl
    | error fault =>
        cases fault with
        | parse e => exact absurd hinvoke (htarget _ _ _ _)
        | unknownGroup | unknownKey => cases manner.strict <;> rfl
        | _ => rfl
  · rfl

/-- A token leads to the same state in another source, or is refused there in the same way. -/
theorem NeverParses.step_inSource (htarget : target.NeverParses) (source other : Text)
    (p : Progress) (token : Token) :
    target.step manner other p token =
      (target.step manner source p token).mapError (Fault.inSource other) := by
  obtain ⟨fragments, calls⟩ := p
  cases token with
  | literal t => rfl
  | call callee stop =>
      simp only [step, giveUp]
      split <;> rfl
  | unit u | comma => cases calls <;> rfl
  | close stop =>
      cases calls with
      | nil => rfl
      | cons c outer =>
          rw [step_close, step_close, htarget.renderCall_inSource source]
          cases target.renderCall manner source stop c.name c.completeArgument.args <;> rfl

/-- A run that gives up within the beginning of what it reads gives up in the same way with anything
else behind that beginning. -/
theorem NeverParses.run_fault_of_prefix (htarget : target.NeverParses) {mode : Mode} {here : Nat}
    {a b : Text} {e : ParseFault}
    (h : target.run manner source (mode.scan here (a ++ b)) p = .error (.parse e))
    (hoffset : e.offset < here + a.length) (other b' : Text) :
    target.run manner other (mode.scan here (a ++ b')) p =
      .error (.parse { e with source := other }) := by
  induction a generalizing mode here p with
  | nil =>
      -- what begins here is given up here or later
      obtain ⟨offset, hmem, he⟩ := htarget.run_fault_offset h
      have hlow := ((mode.scan_offsets here b).2 _ hmem).1
      rw [List.length_nil] at hoffset
      omega
  | cons u a ih =>
      have hbehind : ∀ p, target.run manner source
            (Mode.behind (mode.read here u).2 (here + 1) (a ++ b)) p = .error (.parse e) →
          target.run manner other (Mode.behind (mode.read here u).2 (here + 1) (a ++ b')) p =
            .error (.parse { e with source := other }) := by
        intro p hrun
        cases hread : (mode.read here u).2 with
        | error flaw =>
            rw [hread] at hrun
            cases hrun
            rfl
        | ok next =>
            rw [hread] at hrun
            refine ih hrun ?_
            rw [List.length_cons] at hoffset
            omega
      rw [List.cons_append, Mode.scan_cons] at h ⊢
      cases htoken : (mode.read here u).1 with
      | none =>
          rw [htoken] at h
          exact hbehind p h
      | some token =>
          rw [htoken] at h
          refine run_cons_eq_error_iff.mpr ?_
          rw [htarget.step_inSource source other]
          rcases run_cons_eq_error_iff.mp h with hstep | ⟨p', hstep, hrest⟩
          · rw [hstep]
            exact .inl rfl
          · rw [hstep]
            exact .inr ⟨p', rfl, hbehind p' hrest⟩

/-- A run gives up for a flaw at that of its scan alone. -/
theorem NeverParses.flaw_of_run (htarget : target.NeverParses) {s : Scan} {e : ParseFault}
    (h : target.run manner source s p = .error (.parse e)) (hkind : e.cause.kind = .malformed) :
    ∃ flaw offset, s.flaw = some (flaw, offset) ∧ e.offset = offset ∧ e.cause = .flaw flaw := by
  obtain ⟨tokens, flaw⟩ := s
  induction tokens generalizing p with
  | nil =>
      cases flaw with
      | none => cases h
      | some flaw =>
          cases h
          exact ⟨flaw.1, flaw.2, rfl, rfl, rfl⟩
  | cons token rest ih =>
      rw [run_mk_cons] at h
      rcases bind_eq_error_iff.mp h with hstep | ⟨p', -, hrest⟩
      · exact absurd hkind (htarget.step_stopsShort hstep).kind_ne
      · exact ih hrest

/-- Running up to the end of a call gives up for a flaw at that of the scan alone. -/
theorem NeverParses.flaw_of_runCall (htarget : target.NeverParses) {tokens : List Token}
    {flaw? : Option (Flaw × Nat)} {e : ParseFault}
    (h : target.runCall manner source flaw? p tokens = .error (.parse e))
    (hkind : e.cause.kind = .malformed) :
    ∃ flaw offset, flaw? = some (flaw, offset) ∧ e.offset = offset ∧ e.cause = .flaw flaw := by
  induction tokens generalizing p with
  | nil =>
      cases flaw? with
      | none => cases h
      | some flaw =>
          cases h
          exact ⟨flaw.1, flaw.2, rfl, rfl, rfl⟩
  | cons token rest ih =>
      rw [runCall_cons] at h
      rcases bind_eq_error_iff.mp h with hstep | ⟨p', -, hrest⟩
      · exact absurd hkind (htarget.step_stopsShort hstep).kind_ne
      · cases hdone : p'.completed? token with
        | some result =>
            rw [hdone] at hrest
            cases hrest
        | none =>
            rw [hdone] at hrest
            exact ih hrest

end Target

/-! ## Missing parentheses -/

/-- Some text closes so many calls. -/
theorem Grammar.exists_closes (depth : Nat) : ∃ rest, Closes depth rest := by
  induction depth with
  | zero => exact ⟨[rightParen], [], [], rfl, .last .nil, .nil⟩
  | succ depth ih =>
      obtain ⟨rest, hrest⟩ := ih
      exact ⟨rightParen :: rest, [], rest, rfl, .last .nil, hrest⟩

namespace Mode

/-- A parenthesis is missing at the end of a source alone, and the grammar allows something to
follow there. -/
theorem missingClose_at_end {mode : Mode} {here : Nat} {t : Text} {offset : Nat}
    (h : (mode.scan here t).flaw = some (.missingClose, offset)) :
    offset = here + t.length ∧ ∃ rest, mode.Accepts (t ++ rest) := by
  induction t generalizing mode here with
  | nil =>
      cases mode with
      | text | textEscape => cases h
      | name depth part => cases part <;> cases h
      | argument depth =>
          cases h
          exact ⟨rfl, exists_closes depth⟩
      | argumentEscape depth =>
          cases h
          obtain ⟨rest, hrest⟩ := exists_closes depth
          exact ⟨rfl, rightParen :: rest, rightParen, rest, rfl, hrest⟩
  | cons u t ih =>
      have hflaw : (mode.scan here (u :: t)).flaw =
          (behind (mode.read here u).2 (here + 1) t).flaw := by
        rw [scan_cons]
        cases (mode.read here u).1 <;> rfl
      rw [hflaw] at h
      have hread := mode.transition_read here u
      cases hresult : (mode.read here u).2 with
      | error flaw =>
          rw [hresult] at h hread
          generalize (mode.read here u).1 = token? at hread
          cases hread <;> cases h
      | ok next =>
          rw [hresult] at h
          obtain ⟨rfl, rest, hrest⟩ := ih h
          refine ⟨?_, rest, ?_⟩
          · rw [List.length_cons]
            omega
          · exact (accepts_cons_iff mode here u (t ++ rest)).mpr ⟨next, hresult, hrest⟩

end Mode

/-- A missing parenthesis is told from other flaws by its wording. -/
theorem ParseCause.eq_missingClose {cause : ParseCause} (hkind : cause.kind = .malformed)
    (hmessage : cause.message = "missing right parenthesis ')'") : cause = .flaw .missingClose := by
  cases cause with
  | flaw f =>
      cases f with
      | missingClose => rfl
      | _ => exact absurd hmessage (by decide)
  | _ => cases hkind

/-- A flaw with this wording is a missing parenthesis. -/
theorem ParseFault.flaw_eq_missingClose {e : ParseFault} {flaw? : Option (Flaw × Nat)}
    (hkind : e.cause.kind = .malformed)
    (hmessage : e.cause.message = "missing right parenthesis ')'")
    (hflaw : ∃ flaw offset, flaw? = some (flaw, offset) ∧ e.offset = offset ∧
      e.cause = .flaw flaw) :
    ∃ offset, flaw? = some (.missingClose, offset) ∧ e.offset = offset := by
  obtain ⟨flaw, offset, hflaw, hoffset, hcause⟩ := hflaw
  rw [ParseCause.eq_missingClose hkind hmessage] at hcause
  cases hcause
  exact ⟨offset, hflaw, hoffset⟩

/-- From a call on, too, a parenthesis is missing at the end of the source alone. -/
theorem Scan.ofCall_missingClose {source : Text} {offset stop : Nat}
    (h : (Scan.ofCall source offset).flaw = some (.missingClose, stop)) : stop = source.length := by
  rw [Scan.ofCall] at h
  cases hdrop : source.drop offset with
  | nil =>
      rw [hdrop] at h
      cases h
  | cons u rest =>
      rw [hdrop] at h
      have hlength := congrArg List.length hdrop
      rw [List.length_drop, List.length_cons] at hlength
      by_cases hu : u = dollar
      · simp only [if_pos hu] at h
        rw [(Mode.missingClose_at_end h).1]
        omega
      · simp only [if_neg hu] at h
        cases h

namespace Target

/-- A source is given up as early as can be told from its beginning, and unfinished input is told
from wrong input. Where a source is given up at a unit of it, every other source that has the same
units up to there, this one included, is given up at the same offset for the same cause. A closing
parenthesis is missing at the end of a source alone; and then the source can be completed to one
that is written out, if evaluation is lenient and no group refuses a call. -/
theorem fault_shows_early (target : Target) (htarget : target.NeverParses) (options : Options)
    (source : Text) :
    (∀ e, target.parse source options = .error (.parse e) → e.offset < source.length →
      ∀ other : Text, other.take (e.offset.toNat + 1) = source.take (e.offset.toNat + 1) →
        target.parse other options = .error (.parse { e with source := other })) ∧
    (∀ e, target.parse source options = .error (.parse e) → e.cause.kind = .malformed →
      e.cause.message = "missing right parenthesis ')'" →
        e.offset = source.length ∧
          ((options.manner target).strict = false →
            (∀ callee keys texts, ∃ rendered, target.invoke callee keys texts = .ok rendered) →
              ∃ rest text, target.parse (source ++ rest) options = .ok text)) ∧
    ∀ offset e, target.parseCallAt source offset options = .error (.parse e) →
      e.cause.kind = .malformed → e.cause.message = "missing right parenthesis ')'" →
        e.offset = source.length := by
  have hrun : ∀ {source e}, target.parse source options = .error (.parse e) ↔
      target.run (options.manner target) source (Scan.ofText source) {} = .error (.parse e) := by
    intro source e
    simp only [parse, evaluate_eq_run]
    cases target.run (options.manner target) source (Scan.ofText source) {} <;>
      simp [bind, Except.bind, pure, Except.pure]
  refine ⟨?_, ?_, ?_⟩
  · intro e he hoffset other hother
    have hlength : e.offset < (0 : Nat) + (source.take (e.offset.toNat + 1)).length := by
      rw [List.length_take]
      omega
    have hsource : target.run (options.manner target) source
        (Mode.text.scan 0 (source.take (e.offset.toNat + 1) ++ source.drop (e.offset.toNat + 1))) {} =
          .error (.parse e) := by
      rw [List.take_append_drop]
      exact hrun.mp he
    have hprefix :=
      htarget.run_fault_of_prefix hsource hlength other (other.drop (e.offset.toNat + 1))
    rw [← hother, List.take_append_drop] at hprefix
    exact hrun.mpr hprefix
  · intro e he hkind hmessage
    obtain ⟨offset, hflaw, heq⟩ :=
      ParseFault.flaw_eq_missingClose hkind hmessage (htarget.flaw_of_run (hrun.mp he) hkind)
    obtain ⟨hoffset, rest, hrest⟩ := Mode.missingClose_at_end hflaw
    refine ⟨by omega, ?_⟩
    intro hlenient hinvoke
    have hobliges : target.Obliges (options.manner target) := by
      refine ⟨?_, hinvoke⟩
      intro callee hstrict
      rw [hlenient] at hstrict
      cases hstrict
    rcases hobliges.evaluate (source ++ rest) with ⟨-, fragments, heval⟩ | ⟨hnot, -⟩
    · exact ⟨rest, target.output fragments, bind_eq_ok_iff.mpr ⟨fragments, heval, rfl⟩⟩
    · exact absurd hrest hnot
  · intro offset e he hkind hmessage
    cases offset with
    | negSucc n =>
        cases he
        cases ParseCause.eq_missingClose hkind hmessage
    | ofNat offset =>
        obtain ⟨stop, hflaw, hstop⟩ := ParseFault.flaw_eq_missingClose hkind hmessage
          (htarget.flaw_of_runCall (eq_error_of_map he) hkind)
        rw [hstop, Scan.ofCall_missingClose hflaw]

/-- The unit that is no name stands in an argument, and a call in an argument is not finished, where
the source ends behind a backslash. -/
theorem fault_shows_early_sample :
    let mild : Target := { sample with invoke := fun _ _ texts => .ok texts.flatten }
    let wrong : Text := "$echo($)b"
    let other : Text := "$echo($),$"
    let unfinished : Text := "a$echo(b,$lost(\\"
    sample.NeverParses ∧ mild.NeverParses ∧
      sample.parse wrong = .error (.parse ⟨.flaw .missingName, wrong, 7⟩) ∧
      7 < wrong.length ∧ other.take 8 = wrong.take 8 ∧
      sample.parse other = .error (.parse ⟨.flaw .missingName, other, 7⟩) ∧
      mild.parse unfinished = .error (.parse ⟨.flaw .missingClose, unfinished, 16⟩) ∧
      unfinished.length = 16 ∧ ∃ rest text, mild.parse (unfinished ++ rest) = .ok text := by
  intro mild wrong other unfinished
  have hmild : mild.NeverParses := fun _ _ _ _ h => by cases h
  have hwrong : sample.parse wrong = .error (.parse ⟨.flaw .missingName, wrong, 7⟩) := rfl
  have hunfinished : mild.parse unfinished =
      .error (.parse ⟨.flaw .missingClose, unfinished, 16⟩) := rfl
  have hwithin : 7 < wrong.length := by decide
  have hother :=
    (fault_shows_early sample sample_neverParses {} wrong).1 _ hwrong (Int.ofNat_lt.mpr hwithin) other
      rfl
  obtain ⟨hlength, hcompletes⟩ :=
    (fault_shows_early mild hmild {} unfinished).2.1 _ hunfinished rfl rfl
  exact ⟨sample_neverParses, hmild, hwrong, hwithin, rfl, hother, hunfinished,
    Int.ofNat.inj hlength.symm, hcompletes rfl fun _ _ texts => ⟨texts.flatten, rfl⟩⟩

end Target

end Sigil
