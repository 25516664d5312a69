import Sigil.Proofs.Expression.Offsets

/-!
# Strict and lenient evaluation

Strict evaluation does what lenient evaluation does until it refuses a call for want of a group or
a key (`strict_only_refuses`). Where it refuses, lenient evaluation has given up nothing yet, so
its own parse fault, if it comes to one, is no earlier. The two runs take the same tokens, since
tokens do not depend on strictness; the relation `OnlyRefuses` holds of every step and is carried
through the run by a rule for computations with a continuation.
-/

namespace Sigil

/-- A strict outcome against a lenient one: both are the same, or the strict one is a refusal for
want of a group or a key, at an offset that no parse fault of the lenient one precedes. -/
def OnlyRefuses {α : Type} (strict lenient : Except Fault α) : Prop :=
  strict = lenient ∨
    ∃ fault : ParseFault, strict = .error (.parse fault) ∧
      (fault.cause.kind = .unknownGroup ∨ fault.cause.kind = .unknownKey) ∧
      ∀ later : ParseFault, lenient = .error (.parse later) → fault.offset ≤ later.offset

namespace OnlyRefuses

variable {α β : Type}

theorem refl (x : Except Fault α) : OnlyRefuses x x := .inl rfl

/-- Two computations go on side by side as long as they agree. Behind a refusal of the strict one
the lenient one may come to any parse fault that is no earlier. -/
theorem bind {strict lenient : Except Fault α} {f g : α → Except Fault β}
    (h : OnlyRefuses strict lenient) (hnext : ∀ a, OnlyRefuses (f a) (g a))
    (hlater : ∀ fault, strict = .error (.parse fault) → ∀ a later,
      g a = .error (.parse later) → fault.offset ≤ later.offset) :
    OnlyRefuses (strict >>= f) (lenient >>= g) := by
  rcases h with rfl | ⟨fault, rfl, hkind, hfault⟩
  · cases strict with
    | error fault => exact .refl _
    | ok a => exact hnext a
  · refine .inr ⟨fault, rfl, hkind, ?_⟩
    intro later h
    -- the lenient fault is of the first computation, or of what goes on behind it
    cases lenient with
    | error fault' =>
        cases h
        exact hfault later rfl
    | ok a => exact hlater fault rfl a later h

/-- Going on alike, in a way that never fails, keeps the relation. -/
theorem map {strict lenient : Except Fault α} (h : OnlyRefuses strict lenient) (f : α → β) :
    OnlyRefuses (do return f (← strict)) (do return f (← lenient)) :=
  h.bind (fun _ => .refl _) (fun _ _ _ _ hpure => by cases hpure)

/-- What succeeds strictly succeeds leniently with the same result. -/
theorem lenient_of_strict {strict lenient : Except Fault α} (h : OnlyRefuses strict lenient) {a : α}
    (hstrict : strict = .ok a) : lenient = .ok a := by
  rcases h with rfl | ⟨fault, hfault, -, -⟩
  · exact hstrict
  · rw [hfault] at hstrict
    cases hstrict

end OnlyRefuses

namespace Target

variable {target : Target} (escape : Text → Text) (source : Text)

/-- Rendering a call strictly only adds refusals. -/
theorem renderCall_onlyRefuses (target : Target) (stop : Nat) (callee : Text)
    (args : List Argument) :
    OnlyRefuses (target.renderCall ⟨true, escape⟩ source stop callee args)
      (target.renderCall ⟨false, escape⟩ source stop callee args) := by
  simp only [renderCall, giveUp]
  by_cases hknown : target.known callee = true
  · rw [if_pos hknown, if_pos hknown]
    cases target.invoke callee (args.map Argument.key) (args.map Argument.text) with
    | ok rendered => exact .refl _
    | error fault =>
        cases fault with
        | unknownGroup group reason =>
            exact .inr ⟨_, rfl, .inl rfl, fun later h => by cases h⟩
        | unknownKey group key reason =>
            exact .inr ⟨_, rfl, .inr rfl, fun later h => by cases h⟩
        | _ => exact .refl _
  · rw [if_neg hknown, if_neg hknown]
    exact .refl _

/-- Taking a token strictly only adds refusals. -/
theorem step_onlyRefuses (target : Target) (p : Progress) (token : Token) :
    OnlyRefuses (target.step ⟨true, escape⟩ source p token)
      (target.step ⟨false, escape⟩ source p token) := by
  obtain ⟨fragments, calls⟩ := p
  cases token with
  | literal t => exact .refl _
  | call callee stop =>
      by_cases hknown : target.known callee = true
      · simp only [step, hknown, Bool.not_true, Bool.and_false]
        exact .refl _
      · refine .inr ⟨⟨.unknownCall target.representation callee, source, stop⟩, ?_, .inl rfl, ?_⟩
        · simp [step, hknown, giveUp]
        · intro later h
          simp [step] at h
  | unit u => cases calls <;> exact .refl _
  | comma => cases calls <;> exact .refl _
  | close stop =>
      cases calls with
      | nil => exact .refl _
      | cons c outer =>
          rw [step_close, step_close]
          exact (renderCall_onlyRefuses escape source target stop c.name _).map _

/-- In ascending offsets, a fault behind a token is no earlier than one at the token. -/
theorem NeverParses.step_fault_le (htarget : target.NeverParses) {manner : Manner} {p : Progress}
    {token : Token} {rest : List Token} {flaw : Option (Flaw × Nat)} {fault : ParseFault}
    (hoffsets : (⟨token :: rest, flaw⟩ : Scan).offsets.Pairwise (· ≤ ·))
    (h : target.step manner source p token = .error (.parse fault)) {later : ParseFault}
    (hlater : ∃ offset ∈ (⟨rest, flaw⟩ : Scan).offsets, later.offset = offset) :
    fault.offset ≤ later.offset := by
  obtain ⟨stop, hstop, hfault⟩ := htarget.step_fault h
  obtain ⟨offset, hmem, hoffset⟩ := hlater
  rw [Scan.offsets_mk_cons, hstop] at hoffsets
  have hle : stop ≤ offset := (List.pairwise_cons.mp hoffsets).1 offset hmem
  omega

/-- The offsets behind a token ascend too. -/
theorem offsets_pairwise_tail {token : Token} {rest : List Token} {flaw : Option (Flaw × Nat)}
    (h : (⟨token :: rest, flaw⟩ : Scan).offsets.Pairwise (· ≤ ·)) :
    (⟨rest, flaw⟩ : Scan).offsets.Pairwise (· ≤ ·) := by
  rw [Scan.offsets_mk_cons] at h
  exact (List.pairwise_append.mp h).2.1

/-- Running over a scan strictly only adds refusals. -/
theorem NeverParses.run_onlyRefuses (htarget : target.NeverParses) (s : Scan)
    (hoffsets : s.offsets.Pairwise (· ≤ ·)) (p : Progress) :
    OnlyRefuses (target.run ⟨true, escape⟩ source s p) (target.run ⟨false, escape⟩ source s p) := by
  obtain ⟨tokens, flaw⟩ := s
  induction tokens generalizing p with
  | nil => exact .refl _
  | cons token rest ih =>
      rw [run_mk_cons, run_mk_cons]
      have hstep := step_onlyRefuses escape source target p token
      refine hstep.bind (fun p' => ih p' (offsets_pairwise_tail hoffsets)) ?_
      -- the strict run stops here, and the lenient one at an offset behind
      intro fault hfault p' later hlater
      exact htarget.step_fault_le source hoffsets hfault (htarget.run_fault_offset hlater)

/-- Running up to the end of a call strictly only adds refusals. -/
theorem NeverParses.runCall_onlyRefuses (htarget : target.NeverParses) (tokens : List Token)
    (flaw : Option (Flaw × Nat))
    (hoffsets : (⟨tokens, flaw⟩ : Scan).offsets.Pairwise (· ≤ ·)) (p : Progress) :
    OnlyRefuses (target.runCall ⟨true, escape⟩ source flaw p tokens)
      (target.runCall ⟨false, escape⟩ source flaw p tokens) := by
  induction tokens generalizing p with
  | nil => exact .refl _
  | cons token rest ih =>
      rw [runCall_cons, runCall_cons]
      have hstep := step_onlyRefuses escape source target p token
      refine hstep.bind ?_ ?_
      · intro p'
        cases p'.completed? token with
        | some result => exact .refl _
        | none => exact ih (offsets_pairwise_tail hoffsets) p'
      · intro fault hfault p' later hlater
        cases hdone : p'.completed? token with
        | some result =>
            rw [hdone] at hlater
            cases hlater
        | none =>
            rw [hdone] at hlater
            exact htarget.step_fault_le source hoffsets hfault (htarget.runCall_fault_offset hlater)

/-! ## Whole sources and single calls -/

/-- Strict evaluation does what lenient evaluation does, or refuses a call for want of a group or a
key no later than lenient evaluation gives up. This holds of the output of a source with the
fragments that it comes from, of the output alone, and of a single call with the offset behind it;
and what can be written out strictly comes out the same leniently. -/
theorem strict_only_refuses (target : Target) (htarget : target.NeverParses)
    (escape : Text → Text) (source : Text) :
    OnlyRefuses
        (do
          let fragments ← target.evaluate ⟨true, escape⟩ source
          return (target.output fragments, fragments))
        (do
          let fragments ← target.evaluate ⟨false, escape⟩ source
          return (target.output fragments, fragments)) ∧
      OnlyRefuses (target.parse source { strict := some true, escape })
        (target.parse source { strict := some false, escape }) ∧
      (∀ offset : Int,
        OnlyRefuses (target.parseCallAt source offset { strict := some true, escape })
          (target.parseCallAt source offset { strict := some false, escape })) ∧
      ∀ text, target.parse source { strict := some true, escape } = .ok text →
        target.parse source { strict := some false, escape } = .ok text := by
  have heval : OnlyRefuses (target.evaluate ⟨true, escape⟩ source)
      (target.evaluate ⟨false, escape⟩ source) := by
    rw [evaluate_eq_run, evaluate_eq_run]
    exact (htarget.run_onlyRefuses escape source _ (Scan.ofText_offsets source).1 _).map _
  have hparse : OnlyRefuses (target.parse source { strict := some true, escape })
      (target.parse source { strict := some false, escape }) :=
    heval.map _
  refine ⟨heval.map _, hparse, ?_, fun text => hparse.lenient_of_strict⟩
  intro offset
  cases offset with
  | ofNat offset =>
      have hoffsets := Scan.ofCall_offsets source offset
      exact (htarget.runCall_onlyRefuses escape source _ _ hoffsets {}).map
        fun result => (target.output [⟨.call, result.1⟩], result.2)
  | negSucc n => exact .refl _

theorem sample_neverParses : sample.NeverParses := by
  intro callee keys texts fault h
  simp only [sample] at h
  split at h <;> cases h

/-- A refused call in front of a flaw: the strict run stops at the call and the lenient one at the
flaw behind it. -/
theorem strict_only_refuses_sample :
    sample.NeverParses ∧
      OnlyRefuses (sample.parse "$lost(a)$(" { strict := some true })
        (sample.parse "$lost(a)$(" { strict := some false }) ∧
      sample.parse "$lost(a)$(" { strict := some true } =
        .error (.parse ⟨.unknownGroup "lost" ["a"] "no table", "$lost(a)$(", 8⟩) ∧
      sample.parse "$lost(a)$(" { strict := some false } =
        .error (.parse ⟨.flaw .missingName, "$lost(a)$(", 9⟩) :=
  ⟨sample_neverParses, (strict_only_refuses sample sample_neverParses id _).2.1, rfl, rfl⟩

end Target

end Sigil
