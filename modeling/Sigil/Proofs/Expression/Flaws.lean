import Sigil.Proofs.Expression.Concatenation
import Sigil.Proofs.Expression.Strictness

/-!
# Flaws of a source

Whether a source is an expression does not depend on what its calls mean. Two evaluations of one
source take the same tokens, whatever their targets render, refuse or escape. So as many calls are
open in the one as in the other, and as many fragments are finished (`Progress.SameShape`), and both
come to the same flaw, unless one of them stops short of it (`Target.flaw_of_source`).
-/

namespace Sigil

/-! ## Outcomes side by side -/

namespace Target

/-- Evaluation with the target ends with the fault before it comes to the end of the source, or to
its flaw: a call is refused, or a group reports a fault that is passed on as it is. -/
inductive StopsShort (target : Target) : Fault → Prop where
  | refusal (e : ParseFault) (hkind : e.cause.kind ≠ .malformed) : StopsShort target (.parse e)
  | report (callee : Text) (keys texts : List Text) {fault : Fault}
      (hinvoke : target.invoke callee keys texts = .error fault)
      (hparse : ∀ e, fault ≠ .parse e) : StopsShort target fault

/-- What an evaluation with the target comes to, against what another evaluation of the same source
comes to. -/
structure SharesFlaw {α β : Type} (target : Target) (R : α → β → Prop) (other : Except Fault α)
    (own : Except Fault β) : Prop where
  /-- Where the other one has a result, this one has a related result or stops short. -/
  of_ok : ∀ a, other = .ok a →
    (∃ b, own = .ok b ∧ R a b) ∨ ∃ fault, own = .error fault ∧ target.StopsShort fault
  /-- Where the other one gives up at a flaw, this one does the same, or stops short no later. -/
  of_flaw : ∀ e, other = .error (.parse e) → e.cause.kind = .malformed →
    own = .error (.parse e) ∨
      ∃ fault, own = .error fault ∧ target.StopsShort fault ∧
        ∀ e', fault = .parse e' → e'.offset ≤ e.offset

/-- A fault that stops evaluation short is not a flaw. -/
theorem StopsShort.kind_ne {target : Target} {e : ParseFault} (h : target.StopsShort (.parse e)) :
    e.cause.kind ≠ .malformed := by
  cases h with
  | refusal _ hkind => exact hkind
  | report _ _ _ _ hparse => exact absurd rfl (hparse e)

namespace SharesFlaw

variable {α β γ δ : Type} {target : Target} {R : α → β → Prop} {S : γ → δ → Prop}

/-- Related results. -/
theorem ok {a : α} {b : β} (h : R a b) : target.SharesFlaw R (.ok a) (.ok b) := by
  refine ⟨?_, nofun⟩
  intro a' ha
  cases ha
  exact .inl ⟨b, rfl, h⟩

/-- Giving up for the same cause at the same place. -/
theorem giveUp (source : Text) (offset : Int) (cause : ParseCause) :
    target.SharesFlaw R (Target.giveUp source offset cause)
      (Target.giveUp source offset cause) := by
  refine ⟨nofun, ?_⟩
  intro e he _
  cases he
  exact .inl rfl

/-- Computations that can only stop short, with related results. -/
theorem of_stopsShort {other : Except Fault α} {own : Except Fault β}
    (hother : ∀ e, other = .error (.parse e) → e.cause.kind ≠ .malformed)
    (hown : ∀ fault, own = .error fault → target.StopsShort fault)
    (hR : ∀ a b, other = .ok a → own = .ok b → R a b) : target.SharesFlaw R other own := by
  refine ⟨?_, fun e he hkind => absurd hkind (hother e he)⟩
  intro a ha
  cases own with
  | ok b => exact .inl ⟨b, rfl, hR a b ha rfl⟩
  | error fault => exact .inr ⟨fault, rfl, hown fault rfl⟩

/-- Computations go on side by side. Where the one has stopped short, the other may come to a flaw
that is no earlier. -/
theorem bind {other : Except Fault α} {own : Except Fault β} {f : α → Except Fault γ}
    {g : β → Except Fault δ} (h : target.SharesFlaw R other own)
    (hnext : ∀ a b, R a b → target.SharesFlaw S (f a) (g b))
    (hlater : ∀ e, own = .error (.parse e) → ∀ a later, f a = .error (.parse later) →
      e.offset ≤ later.offset) :
    target.SharesFlaw S (other >>= f) (own >>= g) := by
  constructor
  · intro c hc
    obtain ⟨a, ha, hfa⟩ := bind_eq_ok_iff.mp hc
    rcases h.of_ok a ha with ⟨b, rfl, hab⟩ | ⟨fault, rfl, hshort⟩
    · exact (hnext a b hab).of_ok c hfa
    · exact .inr ⟨fault, rfl, hshort⟩
  · intro e he hkind
    rcases bind_eq_error_iff.mp he with he | ⟨a, ha, hfa⟩
    · rcases h.of_flaw e he hkind with rfl | ⟨fault, rfl, hshort, hoffset⟩
      · exact .inl rfl
      · exact .inr ⟨fault, rfl, hshort, hoffset⟩
    · rcases h.of_ok a ha with ⟨b, rfl, hab⟩ | ⟨fault, rfl, hshort⟩
      · exact (hnext a b hab).of_flaw e hfa hkind
      · refine .inr ⟨fault, rfl, hshort, ?_⟩
        rintro e' rfl
        exact hlater e' rfl a e hfa

/-- Going on in ways that never fail keeps the relation, if the results do. -/
theorem map {other : Except Fault α} {own : Except Fault β} (h : target.SharesFlaw R other own)
    {f : α → γ} {g : β → δ} (hresults : ∀ a b, R a b → S (f a) (g b)) :
    target.SharesFlaw S (do return f (← other)) (do return g (← own)) :=
  h.bind (fun a b hab => .ok (hresults a b hab)) fun _ _ _ _ hpure => by cases hpure

end SharesFlaw

end Target

/-! ## States side by side -/

/-- The number of fragments that a token finishes where so many calls are open. -/
def Token.finished (n : Nat) : Token → Nat
  | .literal _ => 1
  | .close _ => if n = 1 then 1 else 0
  | _ => 0

/-- As many calls are open in one state as in the other, and as many fragments are finished. -/
structure Progress.SameShape (p p' : Progress) : Prop where
  calls : p.calls.length = p'.calls.length
  fragments : p.fragments.length = p'.fragments.length

/-- Whether a token completes a call that no other encloses, and where, shows in the shape. -/
theorem Progress.SameShape.completed?_stop {p p' : Progress} (h : p.SameShape p') (token : Token) :
    (p.completed? token).map Prod.snd = (p'.completed? token).map Prod.snd := by
  obtain ⟨fragments, calls⟩ := p
  obtain ⟨fragments', calls'⟩ := p'
  obtain ⟨hcalls, hfragments⟩ := h
  cases token with
  | close stop =>
      match calls, calls', fragments, fragments', hcalls, hfragments with
      | [], [], [], [], _, _ => rfl
      | [], [], [_], [_], _, _ => rfl
      | [], [], _ :: _ :: _, _ :: _ :: _, _, _ => rfl
      | _ :: _, _ :: _, _, _, _, _ => rfl
  | _ => rfl

namespace Target

variable {target target' : Target} {manner manner' : Manner} {source : Text} {p p' q q' : Progress}
  {token : Token}

/-- A token finishes as many fragments as it does wherever so many calls are open. -/
theorem length_fragments_step (h : target.step manner source p token = .ok p') :
    p'.fragments.length = p.fragments.length + token.finished p.calls.length := by
  cases takes_of_step h with
  | literal => exact List.length_append
  | close _ _ outer =>
      cases outer with
      | nil => exact List.length_append
      | cons c' outer => rfl
  | _ => rfl

/-- One token leads to states of the same shape. -/
theorem sameShape_step (h : p.SameShape p') (hstep : target.step manner source p token = .ok q)
    (hstep' : target'.step manner' source p' token = .ok q') : q.SameShape q' := by
  constructor
  · rw [length_calls_step hstep, length_calls_step hstep', h.calls]
  · rw [length_fragments_step hstep, length_fragments_step hstep', h.calls, h.fragments]

/-! ## Runs side by side -/

/-- Rendering a call stops evaluation short if it fails. -/
theorem NeverParses.renderCall_stopsShort (h : target.NeverParses) {stop : Nat} {callee : Text}
    {args : List Argument} {fault : Fault}
    (hfault : target.renderCall manner source stop callee args = .error fault) :
    target.StopsShort fault := by
  rcases renderCall_eq_error hfault with ⟨cause, rfl, hkind, -⟩ | ⟨hinvoke, -⟩
  · exact .refusal _ hkind
  · refine .report _ _ _ hinvoke ?_
    rintro e rfl
    exact h _ _ _ _ hinvoke

/-- A token stops evaluation short if it cannot be taken. -/
theorem NeverParses.step_stopsShort (h : target.NeverParses) {fault : Fault}
    (hfault : target.step manner source p token = .error fault) : target.StopsShort fault := by
  cases rejects_of_step hfault with
  | call => exact .refusal _ nofun
  | close _ _ _ _ hfault => exact h.renderCall_stopsShort hfault

/-- Two evaluations take a token side by side. -/
theorem NeverParses.step_sharesFlaw (h : target.NeverParses) (h' : target'.NeverParses)
    (hshape : p.SameShape p') (token : Token) :
    target'.SharesFlaw Progress.SameShape (target.step manner source p token)
      (target'.step manner' source p' token) :=
  .of_stopsShort (fun _ hfault => (h.step_stopsShort hfault).kind_ne)
    (fun _ => h'.step_stopsShort) fun _ _ => sameShape_step hshape

/-- Two evaluations run over a scan side by side. -/
theorem NeverParses.run_sharesFlaw (h : target.NeverParses) (h' : target'.NeverParses) (s : Scan)
    (hoffsets : s.offsets.Pairwise (· ≤ ·)) (hshape : p.SameShape p') :
    target'.SharesFlaw Progress.SameShape (target.run manner source s p)
      (target'.run manner' source s p') := by
  obtain ⟨tokens, flaw⟩ := s
  induction tokens generalizing p p' with
  | nil =>
      cases flaw with
      | none => exact .ok hshape
      | some flaw => exact .giveUp source flaw.2 (.flaw flaw.1)
  | cons token rest ih =>
      rw [run_mk_cons, run_mk_cons]
      refine (h.step_sharesFlaw h' hshape token).bind
        (fun q q' hshape => ih hshape (offsets_pairwise_tail hoffsets)) ?_
      -- one run stops here, and the flaw of the other one is at an offset behind
      intro e he q later hlater
      exact h'.step_fault_le source hoffsets he (h.run_fault_offset hlater)

/-- Two evaluations run up to the end of a call side by side, and the call ends at the same
offset. -/
theorem NeverParses.runCall_sharesFlaw (h : target.NeverParses) (h' : target'.NeverParses)
    (tokens : List Token) (flaw : Option (Flaw × Nat))
    (hoffsets : (⟨tokens, flaw⟩ : Scan).offsets.Pairwise (· ≤ ·)) (hshape : p.SameShape p') :
    target'.SharesFlaw (fun result result' => result.2 = result'.2)
      (target.runCall manner source flaw p tokens)
      (target'.runCall manner' source flaw p' tokens) := by
  induction tokens generalizing p p' with
  | nil =>
      cases flaw with
      | none => exact .ok rfl
      | some flaw => exact .giveUp source flaw.2 (.flaw flaw.1)
  | cons token rest ih =>
      rw [runCall_cons, runCall_cons]
      refine (h.step_sharesFlaw h' hshape token).bind ?_ ?_
      · intro q q' hshape
        have hstop := hshape.completed?_stop token
        cases hdone : q.completed? token with
        | none =>
            rw [hdone, Option.map_none, eq_comm, Option.map_eq_none_iff] at hstop
            rw [hstop]
            exact ih (offsets_pairwise_tail hoffsets) hshape
        | some result =>
            rw [hdone, Option.map_some, eq_comm, Option.map_eq_some_iff] at hstop
            obtain ⟨result', hdone', hstop⟩ := hstop
            rw [hdone']
            exact .ok hstop.symm
      · intro e he q later hlater
        cases hdone : q.completed? token with
        | some result =>
            rw [hdone] at hlater
            cases hlater
        | none =>
            rw [hdone] at hlater
            exact h'.step_fault_le source hoffsets he (h.runCall_fault_offset hlater)

/-! ## Whole sources and single calls -/

/-- The flaw of a source does not depend on what its calls mean, nor on strictness and escaping.
Where one evaluation has a result, no other one gives up at a flaw; where one gives up at a flaw,
every other one gives up at the same flaw, or stops short no later than at it. This holds of whole
sources and of single calls, and where two evaluations both write a call out, it ends at the same
offset. -/
theorem flaw_of_source {target target' : Target} (h : target.NeverParses)
    (h' : target'.NeverParses) (options options' : Options) (source : Text) :
    target'.SharesFlaw (fun _ _ => True) (target.parse source options)
        (target'.parse source options') ∧
      ∀ offset : Int, target'.SharesFlaw (fun result result' => result.2 = result'.2)
        (target.parseCallAt source offset options)
        (target'.parseCallAt source offset options') := by
  have hshape : ({} : Progress).SameShape {} := ⟨rfl, rfl⟩
  constructor
  · simp only [parse, evaluate_eq_run]
    have hoffsets := (Scan.ofText_offsets source).1
    have hrun : target'.SharesFlaw Progress.SameShape
        (target.run (options.manner target) source (Scan.ofText source) {})
        (target'.run (options'.manner target') source (Scan.ofText source) {}) :=
      h.run_sharesFlaw h' (Scan.ofText source) hoffsets hshape
    have heval : target'.SharesFlaw (fun _ _ => True) _ _ :=
      hrun.map (f := Progress.fragments) (g := Progress.fragments) fun _ _ _ => trivial
    exact heval.map fun _ _ _ => trivial
  · intro offset
    cases offset with
    | ofNat offset =>
        have hoffsets := Scan.ofCall_offsets source offset
        exact (h.runCall_sharesFlaw h' _ _ hoffsets hshape).map fun _ _ hstop => hstop
    | negSucc n => exact .giveUp source _ (.flaw .missingCall)

/-- Where no group is known, the flaw of the source shows. Strict evaluation stops short of it, and
both find the end of the call in front. -/
theorem flaw_of_source_sample :
    let bare : Target := { sample with known := fun _ => false }
    let source : Text := "$lost(a,)$("
    sample.NeverParses ∧ bare.NeverParses ∧
      bare.parse source = .error (.parse ⟨.flaw .missingName, source, 10⟩) ∧
      sample.parse source { strict := some true } =
        .error (.parse ⟨.unknownGroup "lost" ["a"] "no table", source, 9⟩) ∧
      sample.SharesFlaw (fun _ _ => True) (bare.parse source)
        (sample.parse source { strict := some true }) ∧
      bare.parseCallAt source 0 { escape := fun _ => [] } = .ok ([], 9) ∧
      sample.parseCallAt source 0 = .ok ("a", 9) ∧
      sample.SharesFlaw (fun result result' => result.2 = result'.2)
        (bare.parseCallAt source 0 { escape := fun _ => [] }) (sample.parseCallAt source 0) := by
  intro bare source
  have hbare : bare.NeverParses := sample_neverParses
  have hparse := (flaw_of_source hbare sample_neverParses {} { strict := some true } source).1
  have hcall := (flaw_of_source hbare sample_neverParses { escape := fun _ => [] } {} source).2 0
  exact ⟨sample_neverParses, hbare, rfl, rfl, hparse, rfl, rfl, hcall⟩

end Target

end Sigil
