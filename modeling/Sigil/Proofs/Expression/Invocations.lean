import Sigil.Backend.Group
import Sigil.Proofs.Expression.WellFormed

/-!
# What evaluation hands to a target

Evaluation hands a call to the target where its parenthesis closes. The calls of a run are listed
from its tokens (`Target.invocations`), also where the run is given up later. Nothing else of what
a target renders matters: one that answers these calls in the same way evaluates the source in the
same way (`Target.evaluate_congr`, `Target.evaluateCall_congr`). For a whole source all of them have
whole arguments (`Target.KeepsWhole.isWhole_of_mem_invocations`), and so are the fragments that go
to the last pass. So a target is asked for whole characters only (`Target.KeepsWhole.worksOnWhole`).
-/

namespace Sigil

open CodeUnit
open Text (IsWhole)

/-- All arguments of a call are whole, as keys and as output text. -/
structure Invocation.IsWhole (call : Invocation) : Prop where
  keys : ∀ key ∈ call.keys, key.IsWhole
  texts : ∀ t ∈ call.texts, t.IsWhole

namespace Target

/-! ## The calls of a run -/

/-- The call that a token hands to the target, if it closes one that the target knows. -/
def invocation? (target : Target) (p : Progress) : Token → Option Invocation
  | .close _ =>
    match p.calls with
    | [] => none
    | c :: _ =>
      let args := c.completeArgument.args
      if target.known c.name then
        some ⟨c.name, args.map Argument.key, args.map Argument.text⟩
      else none
  | _ => none

/-- The calls that are handed to the target while tokens are taken, up to one that cannot be taken.
A run for a `single` call ends where that is complete. -/
def invocations (target : Target) (manner : Manner) (source : Text) (single : Bool) :
    Progress → List Token → List Invocation
  | _, [] => []
  | p, token :: rest =>
    (target.invocation? p token).toList ++
      match target.step manner source p token with
      | .error _ => []
      | .ok p' =>
        if single && (p'.completed? token).isSome then []
        else target.invocations manner source single p' rest

/-- The calls that are handed to the target when a source is evaluated. -/
def textInvocations (target : Target) (manner : Manner) (source : Text) : List Invocation :=
  target.invocations manner source false {} (Scan.ofText source).tokens

/-- The calls that are handed to the target when the call at an offset is evaluated. -/
def callInvocations (target : Target) (manner : Manner) (source : Text) (offset : Nat) :
    List Invocation :=
  target.invocations manner source true {} (Scan.ofCall source offset).tokens

variable {target target' : Target} {manner : Manner} {source : Text} {single : Bool}
  {p p' : Progress} {token : Token} {rest tokens : List Token}

/-- The calls of a run include those of its first token. -/
theorem mem_invocations_of_invocation? {call : Invocation}
    (h : target.invocation? p token = some call) :
    call ∈ target.invocations manner source single p (token :: rest) := by
  rw [invocations, h]
  exact List.mem_append_left _ (List.mem_singleton_self call)

/-- The calls of a run include those behind its first token. -/
theorem mem_invocations_of_step (hstep : target.step manner source p token = .ok p')
    (hgoes : ¬(single && (p'.completed? token).isSome) = true) {call : Invocation}
    (h : call ∈ target.invocations manner source single p' rest) :
    call ∈ target.invocations manner source single p (token :: rest) := by
  simp only [invocations, hstep, if_neg hgoes]
  exact List.mem_append_right _ h

/-- The calls of a run are those of its first token and those behind it. -/
theorem mem_invocations_cons {call : Invocation}
    (h : call ∈ target.invocations manner source single p (token :: rest)) :
    target.invocation? p token = some call ∨
      ∃ p', target.step manner source p token = .ok p' ∧
        call ∈ target.invocations manner source single p' rest := by
  rw [invocations, List.mem_append, Option.mem_toList] at h
  refine h.imp_right fun h => ?_
  cases hstep : target.step manner source p token with
  | error fault =>
      rw [hstep] at h
      cases h
  | ok p' =>
      rw [hstep] at h
      refine ⟨p', rfl, ?_⟩
      dsimp only at h
      split at h
      · cases h
      · exact h

/-! ## Nothing else matters -/

/-- The two targets have the same name and know the same groups. -/
structure Resembles (target target' : Target) : Prop where
  representation : target'.representation = target.representation
  known : target'.known = target.known

/-- The two targets answer a call in the same way. -/
def AnswersAlike (target target' : Target) (call : Invocation) : Prop :=
  target'.invoke call.group call.keys call.texts = target.invoke call.group call.keys call.texts

namespace Resembles

variable (h : target.Resembles target')
include h

/-- A token is taken in the same way if the call that it hands on is answered in the same way. -/
theorem step_congr (hcall : ∀ call, target.invocation? p token = some call →
      target.AnswersAlike target' call) :
    target'.step manner source p token = target.step manner source p token := by
  obtain ⟨fragments, calls⟩ := p
  cases token with
  | literal t | unit u | comma => rfl
  | call callee stop =>
      simp only [step]
      rw [h.known, h.representation]
  | close stop =>
      cases calls with
      | nil => rfl
      | cons c outer =>
          rw [step_close, step_close, renderCall, renderCall, h.known]
          cases hknown : target.known c.name with
          | false => rfl
          | true =>
              have hinvoke := hcall _ (if_pos hknown)
              rw [AnswersAlike] at hinvoke
              rw [if_pos rfl, if_pos rfl, hinvoke]

/-- Tokens are taken in the same way if all calls of the run are answered in the same way. -/
theorem foldlM_step_congr (hcalls : ∀ call ∈ target.invocations manner source false p tokens,
      target.AnswersAlike target' call) :
    tokens.foldlM (target'.step manner source) p = tokens.foldlM (target.step manner source) p := by
  induction tokens generalizing p with
  | nil => rfl
  | cons token rest ih =>
      have hfirst : target'.step manner source p token = target.step manner source p token :=
        h.step_congr fun call hcall => hcalls call (mem_invocations_of_invocation? hcall)
      rw [List.foldlM_cons, List.foldlM_cons, hfirst]
      refine bind_congr_ok fun p' hstep => ih fun call hcall => ?_
      exact hcalls call (mem_invocations_of_step hstep (by simp) hcall)

/-- So is a run for a single call. -/
theorem runCall_congr (flaw : Option (Flaw × Nat))
    (hcalls : ∀ call ∈ target.invocations manner source true p tokens,
      target.AnswersAlike target' call) :
    target'.runCall manner source flaw p tokens = target.runCall manner source flaw p tokens := by
  induction tokens generalizing p with
  | nil => rfl
  | cons token rest ih =>
      have hfirst : target'.step manner source p token = target.step manner source p token :=
        h.step_congr fun call hcall => hcalls call (mem_invocations_of_invocation? hcall)
      rw [runCall_cons, runCall_cons, hfirst]
      refine bind_congr_ok fun p' hstep => ?_
      cases hcompleted : p'.completed? token with
      | some result => rfl
      | none =>
          refine ih fun call hcall => hcalls call (mem_invocations_of_step hstep ?_ hcall)
          rw [hcompleted]
          exact Bool.false_ne_true

/-- A source is evaluated in the same way if all calls that are handed on are answered in the same
way. -/
theorem evaluate_congr (hcalls : ∀ call ∈ target.textInvocations manner source,
      target.AnswersAlike target' call) :
    target'.evaluate manner source = target.evaluate manner source := by
  rw [evaluate, evaluate, h.foldlM_step_congr hcalls]

/-- So is the call at an offset. -/
theorem evaluateCall_congr {offset : Nat}
    (hcalls : ∀ call ∈ target.callInvocations manner source offset,
      target.AnswersAlike target' call) :
    target'.evaluateCall manner source offset = target.evaluateCall manner source offset :=
  h.runCall_congr _ hcalls

end Resembles

/-! ## Whole arguments -/

namespace KeepsWhole

/-- A call that is handed on has whole arguments, since all that was written is whole. -/
theorem isWhole_of_invocation? (hp : p.IsWhole) {call : Invocation}
    (hcall : target.invocation? p token = some call) : call.IsWhole := by
  obtain ⟨fragments, calls⟩ := p
  cases token with
  | literal t | call callee stop | unit u | comma => cases hcall
  | close stop =>
      cases calls with
      | nil => cases hcall
      | cons c outer =>
          simp only [invocation?] at hcall
          split at hcall
          · cases hcall
            have hargs := hp.innermost.completeArgument.args
            constructor
            · intro key hkey
              obtain ⟨a, ha, rfl⟩ := List.mem_map.mp hkey
              exact (hargs a ha).key
            · intro t ht
              obtain ⟨a, ha, rfl⟩ := List.mem_map.mp ht
              exact (hargs a ha).text
          · cases hcall

/-- All calls of a run over whole tokens have whole arguments. -/
theorem isWhole_of_mem_invocations (h : target.KeepsWhole manner)
    (htokens : Token.AreWhole tokens) (hp : p.IsWhole) :
    ∀ call ∈ target.invocations manner source single p tokens, call.IsWhole := by
  revert p
  refine htokens.induction (P := fun tokens => ∀ {p : Progress}, p.IsWhole →
    ∀ call ∈ target.invocations manner source single p tokens, call.IsWhole) ?nil ?cons ?pair
  case nil => exact fun _ => List.forall_mem_nil _
  case cons =>
    intro token rest htoken ih p hp call hcall
    rcases mem_invocations_cons hcall with hfirst | ⟨p', hstep, hrest⟩
    · exact isWhole_of_invocation? hp hfirst
    · exact ih (h.step htoken hp hstep) call hrest
  case pair =>
    intro u v rest hu hv ih p hp call hcall
    -- no half of a pair closes a call
    obtain ⟨p₁, hstep, hcall⟩ := (mem_invocations_cons hcall).resolve_left nofun
    obtain ⟨p₂, hstep', hcall⟩ := (mem_invocations_cons hcall).resolve_left nofun
    exact ih (h.step_pair hu hv hp hstep hstep') call hcall

/-- The call that a run over whole tokens completes first is written as whole text. -/
theorem runCall (h : target.KeepsWhole manner) {flaw : Option (Flaw × Nat)}
    (htokens : Token.AreWhole tokens) (hp : p.IsWhole) {result : Text × Nat}
    (hrun : target.runCall manner source flaw p tokens = .ok result) : result.1.IsWhole := by
  revert p
  refine htokens.induction (P := fun tokens => ∀ {p : Progress}, p.IsWhole →
    target.runCall manner source flaw p tokens = .ok result → result.1.IsWhole) ?nil ?cons ?pair
  case nil =>
    intro p hp hrun
    cases flaw with
    | none =>
        cases hrun
        exact .nil
    | some flaw => cases hrun
  case cons =>
    intro token rest htoken ih p hp hrun
    rw [runCall_cons] at hrun
    obtain ⟨p₁, hstep, hrest⟩ := bind_eq_ok_iff.mp hrun
    have hp₁ := h.step htoken hp hstep
    cases hcompleted : p₁.completed? token with
    | none =>
        rw [hcompleted] at hrest
        exact ih hp₁ hrest
    | some completed =>
        rw [hcompleted] at hrest
        cases hrest
        obtain ⟨fragment, hfragment, htext⟩ := p₁.mem_fragments_of_completed? hcompleted
        rw [← htext]
        exact hp₁.fragments fragment hfragment
  case pair =>
    intro u v rest hu hv ih p hp hrun
    rw [runCall_cons] at hrun
    obtain ⟨p₁, hstep, hrun⟩ := bind_eq_ok_iff.mp hrun
    have hleading : p₁.completed? (.unit u) = none := rfl
    rw [hleading, runCall_cons] at hrun
    obtain ⟨p₂, hstep', hrun⟩ := bind_eq_ok_iff.mp hrun
    have htrailing : p₂.completed? (.unit v) = none := rfl
    rw [htrailing] at hrun
    exact ih (h.step_pair hu hv hp hstep hstep') hrun

end KeepsWhole

end Target

/-! ## Whole sources -/

/-- What stands behind a unit of a whole text that is no half is whole. -/
theorem Text.IsWhole.of_drop {t : Text} (h : t.IsWhole) {offset : Nat} {u : CodeUnit} {rest : Text}
    (hdrop : t.drop offset = u :: rest) (hu : u.isHalf = false) : rest.IsWhole := by
  induction h generalizing offset with
  | nil => simp at hdrop
  | unit _ ht ih =>
      cases offset with
      | zero =>
          cases hdrop
          exact ht
      | succ offset => exact ih hdrop
  | pair hleading htrailing ht ih =>
      match offset with
      | 0 =>
          cases hdrop
          rw [isHalf, hleading, Bool.true_or] at hu
          cases hu
      | 1 =>
          cases hdrop
          rw [isHalf, htrailing, Bool.or_true] at hu
          cases hu
      | offset + 2 => exact ih hdrop

/-- The tokens of a call in a whole source are whole. -/
theorem Scan.areWhole_ofCall {source : Text} (h : source.IsWhole) (offset : Nat) :
    Token.AreWhole (Scan.ofCall source offset).tokens := by
  unfold Scan.ofCall
  split
  · exact .nil
  · rename_i u rest hdrop
    split
    · rename_i hdollar
      subst hdollar
      exact Mode.areWhole_scan (h.of_drop hdrop (by decide)) _ _
    · exact .nil

/-- Nothing was written at first. -/
theorem Progress.isWhole_initial : ({} : Progress).IsWhole :=
  ⟨List.forall_mem_nil _, List.forall_mem_nil _⟩

namespace Target

/-- The fragments go to the last pass when the source, or the call at an offset of it, is written
out. -/
inductive Outputs (target : Target) (manner : Manner) (source : Text) : List Fragment → Prop where
  | text {fragments : List Fragment} (heval : target.evaluate manner source = .ok fragments) :
      Outputs target manner source fragments
  | call {offset stop : Nat} {text : Text}
      (heval : target.evaluateCall manner source offset = .ok (text, stop)) :
      Outputs target manner source [⟨.call, text⟩]

/-- Evaluation of a source hands nothing to a target that is not whole, and what the target does
with anything else does not matter. -/
structure WorksOnWhole (target : Target) (manner : Manner) (source : Text) : Prop where
  text : ∀ call ∈ target.textInvocations manner source, call.IsWhole
  call : ∀ offset, ∀ call ∈ target.callInvocations manner source offset, call.IsWhole
  fragments : ∀ fragments, target.Outputs manner source fragments →
    ∀ fragment ∈ fragments, fragment.text.IsWhole
  agrees : ∀ target' : Target, target.Resembles target' →
    (∀ call : Invocation, call.IsWhole → target.AnswersAlike target' call) →
      target'.evaluate manner source = target.evaluate manner source ∧
        ∀ offset, target'.evaluateCall manner source offset =
          target.evaluateCall manner source offset

/-- A target that renders whole arguments to whole text works on whole text alone, if the source is
whole. -/
theorem KeepsWhole.worksOnWhole {target : Target} {manner : Manner} (h : target.KeepsWhole manner)
    {source : Text} (hsource : source.IsWhole) : target.WorksOnWhole manner source := by
  have htext : ∀ call ∈ target.textInvocations manner source, call.IsWhole :=
    h.isWhole_of_mem_invocations (Mode.areWhole_scan hsource .text 0) Progress.isWhole_initial
  have hcall : ∀ offset, ∀ call ∈ target.callInvocations manner source offset, call.IsWhole :=
    fun offset => h.isWhole_of_mem_invocations (Scan.areWhole_ofCall hsource offset)
      Progress.isWhole_initial
  refine ⟨htext, hcall, ?_, ?_⟩
  · intro fragments houtputs
    cases houtputs with
    | text heval => exact h.evaluate hsource heval
    | @call offset stop text heval =>
        exact List.forall_mem_singleton.mpr
          (h.runCall (Scan.areWhole_ofCall hsource offset) Progress.isWhole_initial heval)
  · intro target' hresembles hagrees
    exact ⟨hresembles.evaluate_congr fun call hmem => hagrees call (htext call hmem),
      fun offset => hresembles.evaluateCall_congr fun call hmem =>
        hagrees call (hcall offset call hmem)⟩

end Target

end Sigil
