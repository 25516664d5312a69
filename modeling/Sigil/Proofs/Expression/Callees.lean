import Sigil.Proofs.Expression.Steps

/-!
# The calls of a source

What a source is written out to depends on the meaning of the calls that it has, and of no others
(`Target.AgreesOn.parse`). Every open call was begun by a token, so a run that takes calls of some
names alone holds calls of these names open, and no others (`Progress.CallsOnly`).
-/

namespace Sigil

/-! ## Names of calls -/

/-- The name of the call that a token begins. -/
def Token.callee? : Token → Option Text
  | call callee _ => some callee
  | _ => none

/-- The names of the calls that a scan begins. -/
def Scan.callees (s : Scan) : List Text := s.tokens.filterMap Token.callee?

/-- The names of the calls in a source. -/
def Text.callees (source : Text) : List Text := (Scan.ofText source).callees

variable {P : Text → Prop}

/-- The names of calls in a scan that begins with a token. -/
theorem Scan.forall_callees_cons {token : Token} {rest : List Token} {flaw : Option (Flaw × Nat)} :
    (∀ callee ∈ (⟨token :: rest, flaw⟩ : Scan).callees, P callee) ↔
      (∀ callee, token.callee? = some callee → P callee) ∧
        ∀ callee ∈ (⟨rest, flaw⟩ : Scan).callees, P callee := by
  simp only [callees, List.mem_filterMap, List.mem_cons]
  constructor
  · intro h
    exact ⟨fun callee hcallee => h callee ⟨token, .inl rfl, hcallee⟩,
      fun callee ⟨other, hmem, hcallee⟩ => h callee ⟨other, .inr hmem, hcallee⟩⟩
  · rintro ⟨hfirst, hrest⟩ callee ⟨other, rfl | hmem, hcallee⟩
    · exact hfirst callee hcallee
    · exact hrest callee ⟨other, hmem, hcallee⟩

/-- All open calls have names with a property. -/
def Progress.CallsOnly (P : Text → Prop) (p : Progress) : Prop := ∀ c ∈ p.calls, P c.name

namespace Progress.CallsOnly

/-- No call is open in the beginning. -/
theorem initial : ({} : Progress).CallsOnly P := List.forall_mem_nil _

/-- A token leaves no calls open but those that were open, and the one that it begins. -/
theorem step {p p' : Progress} (hp : p.CallsOnly P) {target : Target} {manner : Manner}
    {source : Text} {token : Token} (htoken : ∀ callee, token.callee? = some callee → P callee)
    (h : target.step manner source p token = .ok p') : p'.CallsOnly P := by
  cases Target.takes_of_step h with
  | call _ _ callee => exact List.forall_mem_cons.mpr ⟨htoken callee rfl, hp⟩
  | unit | comma => exact List.forall_mem_cons.mpr (List.forall_mem_cons.mp hp)
  | close _ _ outer =>
      have houter : ∀ c ∈ outer, P c.name := (List.forall_mem_cons.mp hp).2
      cases outer with
      | nil => exact List.forall_mem_nil _
      | cons c' outer => exact List.forall_mem_cons.mpr (List.forall_mem_cons.mp houter)
  | literal | strayUnit | strayComma | strayClose => exact hp

end Progress.CallsOnly

/-! ## Targets -/

/-- Two targets differ in what calls mean whose names lack a property, and in nothing else. -/
structure Target.AgreesOn (P : Text → Prop) (target target' : Target) : Prop where
  representation : target.representation = target'.representation
  strict : target.strict = target'.strict
  known : ∀ callee, P callee → target.known callee = target'.known callee
  invoke : ∀ callee, P callee → target.invoke callee = target'.invoke callee
  translate : target.translate = target'.translate

namespace Target.AgreesOn

theorem refl (target : Target) : target.AgreesOn P target :=
  ⟨rfl, rfl, fun _ _ => rfl, fun _ _ => rfl, rfl⟩

/-- Targets that agree on the calls of some names, and on those of all others, agree on all calls. -/
theorem union {Q : Text → Prop} {target target' : Target} (h : target.AgreesOn P target')
    (h' : target.AgreesOn Q target') (hall : ∀ callee, P callee ∨ Q callee) :
    target.AgreesOn (fun _ => True) target' :=
  ⟨h.representation, h.strict, fun callee _ => (hall callee).elim (h.known callee) (h'.known callee),
    fun callee _ => (hall callee).elim (h.invoke callee) (h'.invoke callee), h.translate⟩

variable {target target' : Target} (h : target.AgreesOn P target') (manner : Manner)
  (source : Text)

include h

theorem renderCall (stop : Nat) {callee : Text} (hcallee : P callee) (args : List Argument) :
    target.renderCall manner source stop callee args =
      target'.renderCall manner source stop callee args := by
  simp only [Target.renderCall, h.known callee hcallee, h.invoke callee hcallee]

/-- The targets take a token alike, if it begins no call that they may disagree about. -/
theorem step {p : Progress} (hp : p.CallsOnly P) {token : Token}
    (htoken : ∀ callee, token.callee? = some callee → P callee) :
    target.step manner source p token = target'.step manner source p token := by
  obtain ⟨fragments, calls⟩ := p
  cases token with
  | literal t => rfl
  | call callee stop =>
      simp only [Target.step, h.known callee (htoken callee rfl), h.representation]
  | unit u => cases calls <;> rfl
  | comma => cases calls <;> rfl
  | close stop =>
      cases calls with
      | nil => rfl
      | cons c outer =>
          have hcall : P c.name := (List.forall_mem_cons.mp hp).1
          rw [step_close, step_close, h.renderCall manner source stop hcall]

/-- The targets run alike over a scan without calls that they may disagree about. -/
theorem run {s : Scan} (hs : ∀ callee ∈ s.callees, P callee) {p : Progress}
    (hp : p.CallsOnly P) : target.run manner source s p = target'.run manner source s p := by
  obtain ⟨tokens, flaw⟩ := s
  induction tokens generalizing p with
  | nil => rfl
  | cons token rest ih =>
      obtain ⟨htoken, hrest⟩ := Scan.forall_callees_cons.mp hs
      rw [run_mk_cons, run_mk_cons, ← h.step manner source hp htoken]
      exact bind_congr_ok fun p' hstep => ih (hp.step htoken hstep) hrest

/-- The targets run alike up to the end of a call. -/
theorem runCall {s : Scan} (hs : ∀ callee ∈ s.callees, P callee) {p : Progress}
    (hp : p.CallsOnly P) :
    target.runCall manner source s.flaw p s.tokens =
      target'.runCall manner source s.flaw p s.tokens := by
  obtain ⟨tokens, flaw⟩ := s
  induction tokens generalizing p with
  | nil => rfl
  | cons token rest ih =>
      obtain ⟨htoken, hrest⟩ := Scan.forall_callees_cons.mp hs
      rw [runCall_cons, runCall_cons, ← h.step manner source hp htoken]
      refine bind_congr_ok fun p' hstep => ?_
      cases p'.completed? token with
      | some result => rfl
      | none => exact ih (hp.step htoken hstep) hrest

/-! ## Whole sources and single calls -/

variable (options : Options)

theorem manner_eq : options.manner target = options.manner target' := by
  rw [Options.manner, Options.manner, h.strict]

theorem output (fragments : List Fragment) :
    target.output fragments = target'.output fragments := by
  rw [Target.output, Target.output, h.translate]

/-- Two targets write a source out alike, or give it up alike, if they agree on its calls. -/
theorem parse (hsource : ∀ callee ∈ source.callees, P callee) :
    target.parse source options = target'.parse source options := by
  simp only [Target.parse, evaluate_eq_run, h.manner_eq, h.output,
    h.run _ source hsource Progress.CallsOnly.initial]

/-- Two targets write a single call out alike, or give it up alike, if they agree on the calls that
begin there. -/
theorem parseCall {offset : Nat}
    (hcall : ∀ callee ∈ (Scan.ofCall source offset).callees, P callee) :
    target.parseCall source offset options = target'.parseCall source offset options := by
  simp only [Target.parseCall, evaluateCall, h.manner_eq, h.output,
    h.runCall _ source hcall Progress.CallsOnly.initial]

end Target.AgreesOn

end Sigil
