import Sigil.Proofs.Expression.Reading
import Sigil.Proofs.Expression.Steps

/-!
# Calls by themselves

A call that renders ends at a parenthesis, and what it renders to depends on the text between its
dollar sign and that parenthesis alone (`Target.evaluateCall_alone`). Where the call stands shows in
the offsets of tokens only (`Mode.Reads`), and these enter faults and nothing else. What stands
behind the call is not reached: the parenthesis completes the only open call, since the mode of the
automaton counts the calls that evaluation holds open (`Progress.Within`).
-/

namespace Sigil

open CodeUnit

/-! ## Units of a call -/

namespace Mode

/-- The number of calls that are open in a mode, where any is. The call whose name is being read is
not open yet. -/
def open? : Mode → Option Nat
  | text | textEscape => none
  | name depth _ => some depth
  | argument depth | argumentEscape depth => some (depth + 1)

/-- What a unit of a call leads to, wherever it stands: the token that it completes, which may carry
an offset, and the next mode. -/
inductive Reads : Mode → CodeUnit → Option (Nat → Token) → Mode → Prop where
  | beginName (depth : Nat) {u : CodeUnit} (hu : u.beginsName = true) :
      Reads (name depth []) u none (name depth [u])
  | continueName (depth : Nat) (v : CodeUnit) (part : Text) {u : CodeUnit}
      (hu : u.continuesName = true) :
      Reads (name depth (v :: part)) u none (name depth (v :: part ++ [u]))
  | openCall (depth : Nat) (v : CodeUnit) (part : Text) :
      Reads (name depth (v :: part)) leftParen (some (.call (v :: part))) (argument depth)
  | beginEscape (depth : Nat) : Reads (argument depth) backslash none (argumentEscape depth)
  | beginCall (depth : Nat) : Reads (argument depth) dollar none (name (depth + 1) [])
  | endArgument (depth : Nat) :
      Reads (argument depth) comma (some fun _ => .comma) (argument depth)
  | closeCall (depth : Nat) :
      Reads (argument depth) rightParen (some fun here => .close (here + 1)) (afterClose depth)
  | unit (depth : Nat) {u : CodeUnit} (hbackslash : u ≠ backslash) (hdollar : u ≠ dollar)
      (hcomma : u ≠ comma) (hparen : u ≠ rightParen) :
      Reads (argument depth) u (some fun _ => .unit u) (argument depth)
  | escaped (depth : Nat) (u : CodeUnit) :
      Reads (argumentEscape depth) u (some fun _ => .unit u) (argument depth)

variable {mode next : Mode} {u : CodeUnit} {token? : Option (Nat → Token)}

theorem Reads.read_eq (h : mode.Reads u token? next) (here : Nat) :
    mode.read here u = (token?.map (· here), .ok next) := by
  cases h with
  | openCall depth v part => simp [read, show leftParen.continuesName = false from rfl]
  | closeCall | endArgument | beginCall => rfl
  | _ => simp [read, *]

/-- A unit that completes a token puts it in front of what stands behind. -/
theorem Reads.scan_eq {token : Nat → Token} (h : mode.Reads u (some token) next) (here : Nat)
    (rest : Text) :
    mode.scan here (u :: rest) =
      ⟨token here :: (next.scan (here + 1) rest).tokens, (next.scan (here + 1) rest).flaw⟩ := by
  rw [scan_cons, h.read_eq here]
  cases h <;> rfl

/-- Inside a call a unit that brings no flaw to light is read in one of these ways. -/
theorem reads_of_read {depth here : Nat} (hopen : mode.open? = some depth)
    {found? : Option Token} (h : mode.read here u = (found?, .ok next)) :
    ∃ token?, mode.Reads u token? next ∧ found? = token?.map (· here) := by
  cases mode with
  | text | textEscape => cases hopen
  | name depth part =>
      cases part with
      | nil =>
          simp only [read] at h
          split at h
          · cases h
            exact ⟨_, .beginName depth (by assumption), rfl⟩
          · cases h
      | cons v part =>
          simp only [read] at h
          split at h
          · cases h
            exact ⟨_, .continueName depth v part (by assumption), rfl⟩
          split at h
          · rename_i hparen
            cases h
            subst hparen
            exact ⟨_, .openCall depth v part, rfl⟩
          · cases h
  | argument depth =>
      simp only [read] at h
      split at h
      · rename_i hbackslash
        cases h
        subst hbackslash
        exact ⟨_, .beginEscape depth, rfl⟩
      split at h
      · rename_i hdollar
        cases h
        subst hdollar
        exact ⟨_, .beginCall depth, rfl⟩
      split at h
      · rename_i hcomma
        cases h
        subst hcomma
        exact ⟨_, .endArgument depth, rfl⟩
      split at h
      · rename_i hparen
        cases h
        subst hparen
        exact ⟨_, .closeCall depth, rfl⟩
      · rename_i hbackslash hdollar hcomma hparen
        cases h
        exact ⟨_, .unit depth hbackslash hdollar hcomma hparen, rfl⟩
  | argumentEscape depth =>
      cases h
      exact ⟨_, .escaped depth u, rfl⟩

/-- Inside a call every unit is read in one of these ways, or it brings a flaw to light, in which
case nothing but a name may have been completed. -/
theorem reads_or_flaw {depth : Nat} (hopen : mode.open? = some depth) (here : Nat)
    (u : CodeUnit) :
    (∃ token? next, mode.Reads u token? next) ∨
      ∃ tokens flaw, (∀ rest, mode.scan here (u :: rest) = ⟨tokens, some flaw⟩) ∧
        (tokens = [] ∨ ∃ callee, tokens = [.call callee here]) := by
  cases hread : mode.read here u with
  | mk found? result =>
  cases result with
  | ok next =>
      obtain ⟨token?, hreads, -⟩ := reads_of_read hopen hread
      exact .inl ⟨token?, next, hreads⟩
  | error flaw =>
      have htransition := mode.transition_read here u
      rw [hread] at htransition
      cases htransition with
      | noName depth =>
          refine .inr ⟨[], (.missingName, here), fun rest => ?_, .inl rfl⟩
          rw [scan_cons, hread]
          rfl
      | notOpen depth v part =>
          refine .inr ⟨[.call (v :: part) here], (.missingOpen, here + 1), fun rest => ?_,
            .inr ⟨_, rfl⟩⟩
          rw [scan_cons, hread]
          rfl

end Mode

namespace Target

variable {target : Target} {manner : Manner} {source source' : Text}

/-- What a call renders to does not depend on where it stands. -/
theorem renderCall_eq_ok {stop stop' : Nat} {callee rendered : Text} {args : List Argument}
    (h : target.renderCall manner source stop callee args = .ok rendered) :
    target.renderCall manner source' stop' callee args = .ok rendered := by
  simp only [renderCall] at h ⊢
  split at h
  · rename_i hknown
    rw [if_pos hknown]
    cases hinvoke : target.invoke callee (args.map Argument.key) (args.map Argument.text) with
    | ok rendered' =>
        rw [hinvoke] at h
        exact h
    | error fault =>
        rw [hinvoke] at h
        cases fault with
        | unknownGroup | unknownKey =>
            -- such a refusal is passed over in lenient evaluation alone
            cases hstrict : manner.strict with
            | true =>
                rw [hstrict] at h
                cases h
            | false =>
                rw [hstrict] at h
                exact h
        | _ => cases h
  · rename_i hknown
    rw [if_neg hknown]
    exact h

end Target

/-- A unit of a call leads to the same state wherever it stands, unless the call is given up. -/
theorem Mode.Reads.step_eq_ok {target : Target} {manner : Manner} {source source' : Text}
    {mode next : Mode} {u : CodeUnit} {token : Nat → Token}
    (h : mode.Reads u (some token) next) {p p' : Progress} {here here' : Nat}
    (hstep : target.step manner source p (token here) = .ok p') :
    target.step manner source' p (token here') = .ok p' := by
  cases h with
  | endArgument | unit | escaped => exact hstep
  | openCall depth v part =>
      cases Target.takes_of_step hstep with
      | call _ _ _ _ hpermitted => simp only [Target.step, if_neg hpermitted]
  | closeCall depth =>
      cases Target.takes_of_step hstep with
      | strayClose => rfl
      | close _ _ _ _ hrendered =>
          rw [Target.step_close, Target.renderCall_eq_ok hrendered]
          rfl

/-! ## Inside a call -/

/-- Evaluation is inside its first call: there is no fragment yet, and those calls are open that the
mode counts. -/
structure Progress.Within (p : Progress) (mode : Mode) : Prop where
  fragments : p.fragments = []
  calls : mode.open? = some p.calls.length

namespace Progress.Within

variable {target : Target} {manner : Manner} {source : Text}
variable {p p' : Progress} {mode next : Mode} {here : Nat} {u : CodeUnit} {token : Nat → Token}

/-- A unit that completes no token leaves as many calls open as before. -/
theorem read (h : p.Within mode) (hreads : mode.Reads u none next) : p.Within next := by
  refine ⟨h.fragments, ?_⟩
  rw [← h.calls]
  cases hreads <;> rfl

/-- A token keeps evaluation inside its first call, unless it is the parenthesis at the end of that
call. Then the call is the only fragment. -/
theorem step (h : p.Within mode) (hreads : mode.Reads u (some token) next)
    (hstep : target.step manner source p (token here) = .ok p') :
    (p'.Within next ∧ ∀ here, p'.completed? (token here) = none) ∨
      u = rightParen ∧ next = .text ∧ ∃ rendered, p' = ⟨[⟨.call, rendered⟩], []⟩ ∧
        ∀ here, p'.completed? (token here) = some (rendered, here + 1) := by
  obtain ⟨fragments, calls⟩ := p
  obtain ⟨hfragments, hcalls⟩ := h
  cases hfragments
  cases hreads with
  | openCall depth v part =>
      cases Target.takes_of_step hstep
      cases hcalls
      exact .inl ⟨⟨rfl, rfl⟩, fun _ => rfl⟩
  | endArgument depth | unit depth | escaped depth =>
      cases calls with
      | nil => cases hcalls
      | cons c outer =>
          cases hstep
          exact .inl ⟨⟨rfl, hcalls⟩, fun _ => rfl⟩
  | closeCall depth =>
      cases Target.takes_of_step hstep with
      | strayClose => cases hcalls
      | close _ _ outer =>
          cases hcalls
          cases outer with
          | nil => exact .inr ⟨rfl, rfl, _, rfl, fun _ => rfl⟩
          | cons c' outer => exact .inl ⟨⟨rfl, rfl⟩, fun _ => rfl⟩

end Progress.Within

namespace Target

variable (target : Target) (manner : Manner) (source : Text)

/-- Run over a scan up to the end of a call. -/
def runCallOf (s : Scan) (p : Progress) : Except Fault (Text × Nat) :=
  target.runCall manner source s.flaw p s.tokens

variable {target manner source} {mode next : Mode} {u : CodeUnit} {p : Progress}

/-- A run that takes a unit without a token goes on behind it. -/
theorem runCallOf_read (h : mode.Reads u none next) (here : Nat) (rest : Text) :
    target.runCallOf manner source (mode.scan here (u :: rest)) p =
      target.runCallOf manner source (next.scan (here + 1) rest) p := by
  rw [Mode.scan_cons, h.read_eq here]
  rfl

/-- A run that takes a unit with a token goes on behind it, unless the token completes the call. -/
theorem runCallOf_token {token : Nat → Token} (h : mode.Reads u (some token) next) (here : Nat)
    (rest : Text) :
    target.runCallOf manner source (mode.scan here (u :: rest)) p =
      (do
        let p ← target.step manner source p (token here)
        match p.completed? (token here) with
        | some result => return result
        | none => target.runCallOf manner source (next.scan (here + 1) rest) p) := by
  rw [h.scan_eq]
  exact runCall_cons _ _ _ _

/-- A flaw behind a name is not the end of a call. -/
theorem runCallOf_name_flaw {callee : Text} {offset : Nat} {flaw : Flaw × Nat}
    {result : Text × Nat} :
    target.runCallOf manner source ⟨[.call callee offset], some flaw⟩ p ≠ .ok result := by
  intro h
  unfold runCallOf at h
  rw [runCall_cons] at h
  obtain ⟨p', -, hrest⟩ := bind_eq_ok_iff.mp h
  cases hrest

/-- The end of the source is not the end of a call. -/
theorem runCallOf_finish (hp : p.Within mode) (here : Nat) {result : Text × Nat} :
    target.runCallOf manner source (mode.finish here) p ≠ .ok result := by
  intro h
  cases mode with
  | text | textEscape => cases hp.calls
  | argument | argumentEscape => cases h
  | name depth part =>
      cases part with
      | nil => cases h
      | cons v part => exact runCallOf_name_flaw h

/-- A unit of a call that ends brings no flaw to light. -/
theorem reads_of_runCallOf (hp : p.Within mode) {here : Nat} {rest : Text} {result : Text × Nat}
    (h : target.runCallOf manner source (mode.scan here (u :: rest)) p = .ok result) :
    ∃ token? next, mode.Reads u token? next := by
  rcases Mode.reads_or_flaw hp.calls here u with hreads | ⟨tokens, flaw, hscan, htokens⟩
  · exact hreads
  · exfalso
    rw [hscan] at h
    rcases htokens with rfl | ⟨callee, rfl⟩
    · cases h
    · exact runCallOf_name_flaw h

/-- A call that ends goes on behind a unit in the same way wherever it stands, or ends with it. -/
theorem runCallOf_cons (hp : p.Within mode) {here stop : Nat} {rest rendered : Text}
    (h : target.runCallOf manner source (mode.scan here (u :: rest)) p = .ok (rendered, stop)) :
    (∃ next p', p'.Within next ∧ ∀ source here rest,
      target.runCallOf manner source (mode.scan here (u :: rest)) p =
        target.runCallOf manner source (next.scan (here + 1) rest) p') ∨
      u = rightParen ∧ stop = here + 1 ∧ ∀ source here rest,
        target.runCallOf manner source (mode.scan here (u :: rest)) p =
          .ok (rendered, here + 1) := by
  obtain ⟨token?, next, hreads⟩ := reads_of_runCallOf hp h
  cases token? with
  | none => exact .inl ⟨next, p, hp.read hreads, fun source here => runCallOf_read hreads here⟩
  | some token =>
      rw [runCallOf_token hreads] at h
      obtain ⟨p', hstep, h⟩ := bind_eq_ok_iff.mp h
      have hstep' : ∀ source' here', target.step manner source' p (token here') = .ok p' :=
        fun source' here' => hreads.step_eq_ok hstep
      rcases hp.step hreads hstep with ⟨hp', hcompleted⟩ | ⟨rfl, -, rendered', -, hcompleted⟩
      · refine .inl ⟨next, p', hp', ?_⟩
        intro source here rest
        rw [runCallOf_token hreads, hstep' source here]
        simp only [bind, Except.bind, hcompleted]
      · rw [hcompleted] at h
        cases h
        refine .inr ⟨rfl, rfl, ?_⟩
        intro source here rest
        rw [runCallOf_token hreads, hstep' source here]
        simp only [bind, Except.bind, hcompleted]
        rfl

/-- A call that ends does so at a parenthesis, and it ends there with the same rendering wherever it
stands, and whatever stands behind it. -/
theorem runCallOf_local (hp : p.Within mode) {here stop : Nat} {rest rendered : Text}
    (h : target.runCallOf manner source (mode.scan here rest) p = .ok (rendered, stop)) :
    ∃ body after, rest = body ++ rightParen :: after ∧ stop = here + body.length + 1 ∧
      ∀ source here after,
        target.runCallOf manner source (mode.scan here (body ++ rightParen :: after)) p =
          .ok (rendered, here + body.length + 1) := by
  induction rest generalizing mode p here with
  | nil => exact absurd h (runCallOf_finish hp here)
  | cons u rest ih =>
      rcases runCallOf_cons hp h with ⟨next, p', hp', hbehind⟩ | ⟨rfl, rfl, hends⟩
      · rw [hbehind] at h
        obtain ⟨body, after, rfl, rfl, hlocal⟩ := ih hp' h
        refine ⟨u :: body, after, rfl, ?_, ?_⟩
        · rw [List.length_cons]
          omega
        · intro source' here' after'
          rw [List.cons_append, hbehind, hlocal, List.length_cons]
          congr 2
          omega
      · exact ⟨[], rest, rfl, rfl, hends⟩

/-- The source of a call begins with a dollar sign. -/
theorem exists_dollar_of_evaluateCall {offset : Nat} {result : Text × Nat}
    (h : target.evaluateCall manner source offset = .ok result) :
    ∃ before rest, source = before ++ dollar :: rest ∧ before.length = offset := by
  rw [evaluateCall, Scan.ofCall] at h
  cases hdrop : source.drop offset with
  | nil =>
      rw [hdrop] at h
      cases h
  | cons u rest =>
      rw [hdrop] at h
      by_cases hu : u = dollar
      · subst hu
        refine ⟨source.take offset, rest, ?_, ?_⟩
        · rw [← hdrop, List.take_append_drop]
        · have hlength := congrArg List.length hdrop
          rw [List.length_drop, List.length_cons] at hlength
          rw [List.length_take]
          omega
      · simp only [if_neg hu] at h
        cases h

/-- Where no dollar sign stands, no call is written out, and nothing else goes wrong. -/
theorem parseCall_of_ne_dollar {offset : Nat} (h : source[offset]? ≠ some dollar)
    (options : Options) :
    ∃ fault, target.parseCall source offset options = .error (.parse fault) := by
  rw [parseCall, evaluateCall, Scan.ofCall]
  cases hdrop : source.drop offset with
  | nil => exact ⟨_, rfl⟩
  | cons u rest =>
      have hu : u ≠ dollar := by
        rintro rfl
        apply h
        rw [← List.head?_drop, hdrop]
        rfl
      simp only [if_neg hu]
      exact ⟨_, rfl⟩

/-- Evaluating a call behind some text runs over what stands behind the dollar sign. -/
theorem evaluateCall_append (before rest : Text) :
    target.evaluateCall manner (before ++ dollar :: rest) before.length =
      target.runCallOf manner (before ++ dollar :: rest)
        ((Mode.name 0 []).scan (before.length + 1) rest) {} := by
  rw [evaluateCall, Scan.ofCall, List.drop_left]
  rfl

/-- A call that renders begins with a dollar sign and ends with a parenthesis, and it renders to the
same with anything in front of it and behind it. -/
theorem evaluateCall_local {offset stop : Nat} {rendered : Text}
    (h : target.evaluateCall manner source offset = .ok (rendered, stop)) :
    ∃ before body after, source = before ++ dollar :: (body ++ rightParen :: after) ∧
      before.length = offset ∧ stop = offset + body.length + 2 ∧
      ∀ before' after',
        target.evaluateCall manner (before' ++ dollar :: (body ++ rightParen :: after'))
          before'.length = .ok (rendered, before'.length + body.length + 2) := by
  obtain ⟨before, rest, rfl, rfl⟩ := exists_dollar_of_evaluateCall h
  rw [evaluateCall_append] at h
  have hwithin : ({} : Progress).Within (.name 0 []) := ⟨rfl, rfl⟩
  obtain ⟨body, after, rfl, rfl, hlocal⟩ := runCallOf_local hwithin h
  refine ⟨before, body, after, rfl, rfl, by omega, ?_⟩
  intro before' after'
  rw [evaluateCall_append, hlocal]
  congr 2
  omega

/-- The part of a source that a call takes up. -/
theorem drop_take_call (before body after : Text) :
    ((before ++ dollar :: (body ++ rightParen :: after)).take
      (before.length + body.length + 2)).drop before.length = dollar :: (body ++ [rightParen]) := by
  have hsource : before ++ dollar :: (body ++ rightParen :: after) =
      (before ++ dollar :: (body ++ [rightParen])) ++ after := by simp
  rw [hsource, List.take_left' (by simp; omega), List.drop_left]

/-- A call that is written out takes up a part of the source from a dollar sign to a parenthesis. By
itself, the part is written out to the same. -/
theorem parseCall_alone {options : Options} {offset stop : Nat} {out : Text}
    (h : target.parseCall source offset options = .ok (out, stop)) :
    offset < stop ∧ stop ≤ source.length ∧ source[offset]? = some dollar ∧
      source[stop - 1]? = some rightParen ∧
      target.parseCall ((source.take stop).drop offset) 0 options =
        .ok (out, ((source.take stop).drop offset).length) := by
  rw [parseCall] at h
  obtain ⟨⟨rendered, stop'⟩, hcall, hout⟩ := bind_eq_ok_iff.mp h
  cases hout
  obtain ⟨before, body, after, rfl, rfl, rfl, hlocal⟩ := evaluateCall_local hcall
  have hparen : (before ++ dollar :: (body ++ rightParen :: after))[
      before.length + body.length + 1]? = some rightParen := by
    have hsource : before ++ dollar :: (body ++ rightParen :: after) =
        (before ++ dollar :: body) ++ rightParen :: after := by simp
    rw [hsource, List.getElem?_append_right (by simp; omega), List.length_append,
      List.length_cons, Nat.add_assoc, Nat.sub_self]
    rfl
  refine ⟨by omega, ?_, ?_, hparen, ?_⟩
  · simp only [List.length_append, List.length_cons]
    omega
  · simp
  · rw [drop_take_call]
    have hcall' := hlocal [] []
    simp only [List.nil_append, List.length_nil, Nat.zero_add] at hcall'
    rw [parseCall, hcall', List.length_cons, List.length_append]
    rfl

end Target

end Sigil
