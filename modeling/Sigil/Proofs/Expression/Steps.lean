import Sigil.Expression.Evaluation
import Sigil.Proofs.Results

/-!
# Steps of evaluation

How evaluation takes the tokens of a scan one at a time. `Target.run` is evaluation from any state
of progress over any scan, so that a statement about a whole source can be proved for the rest of
one. A rendered call goes to the call around it, or to the finished fragments (`Progress.receive`).
What a token can do is said once, by `Target.Takes` where it is taken and by `Target.Rejects` where
it is not.
-/

namespace Sigil

/-- Hand a rendered call to the call around it, or to the finished fragments. -/
def Progress.receive (p : Progress) (rendered : Text) : Progress :=
  match p.calls with
  | [] => { p with fragments := p.fragments ++ [⟨.call, rendered⟩] }
  | c :: outer => { p with calls := c.append rendered rendered :: outer }

/-- The call that a token completes, if no other encloses it: its rendering, and the offset behind
its parenthesis. -/
def Progress.completed? (p : Progress) (token : Token) : Option (Text × Nat) :=
  match token, p.calls, p.fragments with
  | .close stop, [], [fragment] => some (fragment.text, stop)
  | _, _, _ => none

namespace Target

/-- A target for examples: `echo` repeats its arguments, `lost` has no table, and there is no other
group. -/
def sample : Target where
  representation := .plain
  known callee := callee == "echo" || callee == "lost"
  invoke callee _ texts :=
    if callee = "lost" then .error (.unknownGroup "lost" "no table") else .ok texts.flatten
  translate rendered _ := rendered

variable (target : Target) (manner : Manner) (source : Text)

/-- The end of a call renders it and hands the result on. -/
theorem step_close (fragments : List Fragment) (c : OpenCall) (outer : List OpenCall)
    (stop : Nat) :
    target.step manner source ⟨fragments, c :: outer⟩ (.close stop) =
      (do
        let rendered ← target.renderCall manner source stop c.name c.completeArgument.args
        return (⟨fragments, outer⟩ : Progress).receive rendered) := by
  simp only [step]
  cases target.renderCall manner source stop c.name c.completeArgument.args with
  | error fault => rfl
  | ok rendered => cases outer <;> rfl

/-- Take the tokens of a scan, and then its flaw. -/
def run (s : Scan) (p : Progress) : Except Fault Progress := do
  let p ← s.tokens.foldlM (target.step manner source) p
  match s.flaw with
  | some (flaw, offset) => giveUp source offset (.flaw flaw)
  | none => return p

/-- Evaluation runs over the scan of the whole source. -/
theorem evaluate_eq_run :
    target.evaluate manner source =
      (do return (← target.run manner source (Scan.ofText source) {}).fragments) := by
  simp only [evaluate, run]
  cases (Scan.ofText source).tokens.foldlM (target.step manner source) {} with
  | error fault => rfl
  | ok p =>
      cases (Scan.ofText source).flaw with
      | none => rfl
      | some flaw => rfl

variable {target manner source}

/-- What a token does to the state of evaluation where it can be taken. Parts of an argument that
stand outside of all calls do nothing. -/
inductive Takes (target : Target) (manner : Manner) (source : Text) :
    Progress → Token → Progress → Prop where
  | literal (fragments : List Fragment) (calls : List OpenCall) (t : Text) :
      Takes target manner source ⟨fragments, calls⟩ (.literal t)
        ⟨fragments ++ [⟨.literal, manner.escape t⟩], calls⟩
  | call (fragments : List Fragment) (calls : List OpenCall) (callee : Text) (stop : Nat)
      (hpermitted : ¬(manner.strict && !target.known callee) = true) :
      Takes target manner source ⟨fragments, calls⟩ (.call callee stop)
        ⟨fragments, { name := callee } :: calls⟩
  | unit (fragments : List Fragment) (c : OpenCall) (outer : List OpenCall) (u : CodeUnit) :
      Takes target manner source ⟨fragments, c :: outer⟩ (.unit u)
        ⟨fragments, c.append [u] (manner.escape [u]) :: outer⟩
  | comma (fragments : List Fragment) (c : OpenCall) (outer : List OpenCall) :
      Takes target manner source ⟨fragments, c :: outer⟩ .comma
        ⟨fragments, c.completeArgument :: outer⟩
  | close (fragments : List Fragment) (c : OpenCall) (outer : List OpenCall) (stop : Nat)
      {rendered : Text}
      (hrendered : target.renderCall manner source stop c.name c.completeArgument.args =
        .ok rendered) :
      Takes target manner source ⟨fragments, c :: outer⟩ (.close stop)
        ((⟨fragments, outer⟩ : Progress).receive rendered)
  | strayUnit (fragments : List Fragment) (u : CodeUnit) :
      Takes target manner source ⟨fragments, []⟩ (.unit u) ⟨fragments, []⟩
  | strayComma (fragments : List Fragment) :
      Takes target manner source ⟨fragments, []⟩ .comma ⟨fragments, []⟩
  | strayClose (fragments : List Fragment) (stop : Nat) :
      Takes target manner source ⟨fragments, []⟩ (.close stop) ⟨fragments, []⟩

/-- A token that leads to a state does so in one of these ways. -/
theorem takes_of_step {p p' : Progress} {token : Token}
    (h : target.step manner source p token = .ok p') : target.Takes manner source p token p' := by
  obtain ⟨fragments, calls⟩ := p
  cases token with
  | literal t =>
      cases h
      exact .literal fragments calls t
  | call callee stop =>
      simp only [step, giveUp] at h
      split at h
      · cases h
      · rename_i hpermitted
        cases h
        exact .call fragments calls callee stop hpermitted
  | unit u =>
      cases calls with
      | nil =>
          cases h
          exact .strayUnit fragments u
      | cons c outer =>
          cases h
          exact .unit fragments c outer u
  | comma =>
      cases calls with
      | nil =>
          cases h
          exact .strayComma fragments
      | cons c outer =>
          cases h
          exact .comma fragments c outer
  | close stop =>
      cases calls with
      | nil =>
          cases h
          exact .strayClose fragments stop
      | cons c outer =>
          rw [step_close] at h
          obtain ⟨rendered, hrendered, hreceive⟩ := bind_eq_ok_iff.mp h
          cases hreceive
          exact .close fragments c outer stop hrendered

/-- Why a token cannot be taken: strictly there must be a group for a call, and a call must be
rendered where it ends. -/
inductive Rejects (target : Target) (manner : Manner) (source : Text) :
    Progress → Token → Fault → Prop where
  | call (p : Progress) (callee : Text) (stop : Nat) (hstrict : manner.strict = true)
      (hunknown : target.known callee = false) :
      Rejects target manner source p (.call callee stop)
        (.parse ⟨.unknownCall target.representation callee, source, stop⟩)
  | close (fragments : List Fragment) (c : OpenCall) (outer : List OpenCall) (stop : Nat)
      {fault : Fault}
      (hfault : target.renderCall manner source stop c.name c.completeArgument.args =
        .error fault) :
      Rejects target manner source ⟨fragments, c :: outer⟩ (.close stop) fault

/-- A token that ends evaluation does so for one of these reasons. -/
theorem rejects_of_step {p : Progress} {token : Token} {fault : Fault}
    (h : target.step manner source p token = .error fault) :
    target.Rejects manner source p token fault := by
  obtain ⟨fragments, calls⟩ := p
  cases token with
  | literal t => cases h
  | call callee stop =>
      simp only [step, giveUp] at h
      split at h
      · rename_i hrefused
        rw [Bool.and_eq_true, Bool.not_eq_true'] at hrefused
        cases h
        exact .call _ callee stop hrefused.1 hrefused.2
      · cases h
  | unit u | comma => cases calls <;> cases h
  | close stop =>
      cases calls with
      | nil => cases h
      | cons c outer =>
          rw [step_close] at h
          exact .close fragments c outer stop (eq_error_of_map h)

/-- A call that is written out is either what the group renders it to or its arguments with blanks
between them. -/
theorem renderCall_cases {stop : Nat} {callee rendered : Text} {args : List Argument}
    (h : target.renderCall manner source stop callee args = .ok rendered) :
    target.invoke callee (args.map Argument.key) (args.map Argument.text) = .ok rendered ∨
      rendered = Text.join " " (args.map Argument.text) := by
  simp only [renderCall, giveUp] at h
  split at h
  · split at h
    · split at h
      · cases h
      · cases h
        exact .inr rfl
    · split at h
      · cases h
      · cases h
        exact .inr rfl
    · cases h
    · exact .inl h
  · cases h
    exact .inr rfl

/-- A call that cannot be rendered is given up behind its parenthesis, for its arguments or strictly
for something that is missing. A fault that is no refusal is passed on. -/
theorem renderCall_eq_error {stop : Nat} {callee : Text} {args : List Argument} {fault : Fault}
    (h : target.renderCall manner source stop callee args = .error fault) :
    (∃ cause, fault = .parse ⟨cause, source, stop⟩ ∧ cause.kind ≠ .malformed ∧
      (cause.kind = .invalidArgument ∨ manner.strict = true)) ∨
    target.invoke callee (args.map Argument.key) (args.map Argument.text) = .error fault ∧
      (∀ group reason, fault ≠ .unknownGroup group reason) ∧
      (∀ group key reason, fault ≠ .unknownKey group key reason) ∧
      ∀ group reason, fault ≠ .invalidArgument group reason := by
  simp only [renderCall, giveUp] at h
  split at h
  · split at h
    · split at h <;> cases h
      exact .inl ⟨_, rfl, nofun, .inr (by assumption)⟩
    · split at h <;> cases h
      exact .inl ⟨_, rfl, nofun, .inr (by assumption)⟩
    · cases h
      exact .inl ⟨_, rfl, nofun, .inl rfl⟩
    · rename_i hgroup hkey hargument
      right
      refine ⟨h, ?_, ?_, ?_⟩
      · rintro group reason rfl
        exact hgroup group reason h
      · rintro group key reason rfl
        exact hkey group key reason h
      · rintro group reason rfl
        exact hargument group reason h
  · cases h

/-- A run over a scan without tokens and without a flaw changes nothing. -/
theorem run_nil (p : Progress) : target.run manner source ⟨[], none⟩ p = .ok p := rfl

/-- A run takes the first token, and then the rest of the scan. -/
theorem run_mk_cons (token : Token) (rest : List Token) (flaw : Option (Flaw × Nat))
    (p : Progress) :
    target.run manner source ⟨token :: rest, flaw⟩ p =
      (do target.run manner source ⟨rest, flaw⟩ (← target.step manner source p token)) := by
  simp only [run, List.foldlM_cons]
  cases target.step manner source p token <;> rfl

/-- A run takes the first token first. A literal must not have another literal behind it, since the
two would be one. -/
theorem run_cons {token : Token} {s : Scan} (p : Progress)
    (h : ∀ t t', token = .literal t → s.tokens.head? ≠ some (.literal t')) :
    target.run manner source (s.cons token) p =
      (do target.run manner source s (← target.step manner source p token)) := by
  have htokens : (s.cons token).tokens = token :: s.tokens := by
    obtain ⟨tokens, flaw⟩ := s
    cases token with
    | literal t =>
        cases tokens with
        | nil => rfl
        | cons next rest =>
            cases next with
            | literal t' => exact absurd rfl (h t t' rfl)
            | _ => rfl
    | _ => rfl
  rw [← run_mk_cons, ← htokens]
  rfl

/-- Running up to the end of a call takes tokens until one completes it. -/
theorem runCall_cons (flaw : Option (Flaw × Nat)) (p : Progress) (token : Token)
    (rest : List Token) :
    target.runCall manner source flaw p (token :: rest) =
      (do
        let p ← target.step manner source p token
        match p.completed? token with
        | some result => return result
        | none => target.runCall manner source flaw p rest) := by
  rw [runCall]
  cases target.step manner source p token with
  | error fault => rfl
  | ok p' =>
      obtain ⟨fragments, calls⟩ := p'
      cases token with
      | close stop =>
          cases calls with
          | cons c outer => rfl
          | nil =>
              cases fragments with
              | nil => rfl
              | cons fragment others => cases others <;> rfl
      | _ => rfl

end Target

end Sigil
