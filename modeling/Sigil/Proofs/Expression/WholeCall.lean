import Sigil.Proofs.Expression.Concatenation

/-!
# A call as a whole source

A whole source that begins with a call is evaluated like the call by itself up to the end of the
call, and from there on like what stands behind it (`Target.run_of_runCallOf`). So the source of a
call is written out as the call is at any place in any source, and a source that has a call for its
only fragment is the source of that call (`Target.parseCall_anywhere`).
-/

namespace Sigil

open CodeUnit

namespace Mode

/-- A source that does not begin with a dollar sign begins with literal text. -/
theorem exists_literal_of_scan {u : CodeUnit} (hu : u ≠ dollar) (here : Nat) (rest : Text) :
    ∃ t others flaw, text.scan here (u :: rest) = ⟨.literal t :: others, flaw⟩ := by
  have hcons : ∀ (t : Text) (s : Scan),
      ∃ t' others flaw, s.cons (.literal t) = ⟨.literal t' :: others, flaw⟩ := by
    intro t ⟨tokens, flaw⟩
    cases tokens with
    | nil => exact ⟨t, [], flaw, rfl⟩
    | cons next others =>
        cases next with
        | literal t' => exact ⟨t ++ t', others, flaw, rfl⟩
        | _ => exact ⟨t, _, flaw, rfl⟩
  by_cases hbackslash : u = backslash
  · subst hbackslash
    cases rest with
    | nil => exact ⟨[backslash], [], none, rfl⟩
    | cons v rest =>
        -- a backslash is literal text itself, or makes a dollar sign literal
        show ∃ t others flaw, textEscape.scan (here + 1) (v :: rest) = _
        rw [scan_cons]
        simp only [read]
        split_ifs <;> exact hcons _ _
  · rw [scan_cons]
    simp only [read, if_neg hu, if_neg hbackslash]
    exact hcons _ _

end Mode

namespace Target

variable {target : Target} {manner : Manner} {source : Text} {mode next : Mode} {u : CodeUnit}
  {p p' : Progress}

/-! ## From the end of a call on -/

/-- A run that takes a unit without a token goes on behind it. -/
theorem run_read (h : mode.Reads u none next) (here : Nat) (rest : Text) :
    target.run manner source (mode.scan here (u :: rest)) p =
      target.run manner source (next.scan (here + 1) rest) p := by
  rw [Mode.scan_cons, h.read_eq here]
  rfl

/-- A run that takes a unit with a token takes the token, and goes on behind it. -/
theorem run_token {token : Nat → Token} (h : mode.Reads u (some token) next) (here : Nat)
    (rest : Text) :
    target.run manner source (mode.scan here (u :: rest)) p =
      (do
        target.run manner source (next.scan (here + 1) rest)
          (← target.step manner source p (token here))) := by
  rw [h.scan_eq]
  exact run_mk_cons _ _ _ _

/-- A run over a whole source finishes a call that ends, and goes on behind it. -/
theorem run_of_runCallOf (hp : p.Within mode) {here stop : Nat} {rest rendered : Text}
    (h : target.runCallOf manner source (mode.scan here rest) p = .ok (rendered, stop)) :
    ∃ body after, rest = body ++ rightParen :: after ∧ stop = here + body.length + 1 ∧
      target.run manner source (mode.scan here rest) p =
        target.run manner source (Mode.text.scan stop after) ⟨[⟨.call, rendered⟩], []⟩ := by
  induction rest generalizing mode p here with
  | nil => exact absurd h (runCallOf_finish hp here)
  | cons u rest ih =>
      -- while the call goes on, one more unit belongs to its source
      have hgoes : ∀ {next : Mode} {p' : Progress}, p'.Within next →
          target.runCallOf manner source (next.scan (here + 1) rest) p' = .ok (rendered, stop) →
          target.run manner source (mode.scan here (u :: rest)) p =
            target.run manner source (next.scan (here + 1) rest) p' →
          ∃ body after, u :: rest = body ++ rightParen :: after ∧
            stop = here + body.length + 1 ∧
            target.run manner source (mode.scan here (u :: rest)) p =
              target.run manner source (Mode.text.scan stop after) ⟨[⟨.call, rendered⟩], []⟩ := by
        intro next p' hp' hcall hrun
        obtain ⟨body, after, rfl, rfl, hbehind⟩ := ih hp' hcall
        refine ⟨u :: body, after, rfl, ?_, hrun.trans hbehind⟩
        rw [List.length_cons]
        omega
      obtain ⟨token?, next, hreads⟩ := reads_of_runCallOf hp h
      cases token? with
      | none =>
          rw [runCallOf_read hreads] at h
          exact hgoes (hp.read hreads) h (run_read hreads here rest)
      | some token =>
          rw [runCallOf_token hreads] at h
          obtain ⟨p', hstep, h⟩ := bind_eq_ok_iff.mp h
          have hrun : target.run manner source (mode.scan here (u :: rest)) p = (do
              target.run manner source (next.scan (here + 1) rest)
                (← target.step manner source p (token here))) :=
            run_token hreads here rest
          rw [hstep] at hrun
          rcases hp.step hreads hstep with
            ⟨hp', hcompleted⟩ | ⟨rfl, rfl, rendered', rfl, hcompleted⟩
          · rw [hcompleted] at h
            exact hgoes hp' h hrun
          · rw [hcompleted] at h
            cases h
            exact ⟨[], rest, rfl, rfl, hrun⟩

/-- A run that comes to the end of the source has completed every call. -/
theorem exists_runCall_of_run {tokens : List Token} {flaw : Option (Flaw × Nat)}
    (h : target.run manner source ⟨tokens, flaw⟩ p = .ok p') :
    ∃ result, target.runCall manner source flaw p tokens = .ok result := by
  induction tokens generalizing p with
  | nil =>
      cases flaw with
      | none => exact ⟨_, rfl⟩
      | some flaw => cases h
  | cons token rest ih =>
      rw [run_mk_cons] at h
      obtain ⟨p₁, hstep, hrest⟩ := bind_eq_ok_iff.mp h
      rw [runCall_cons, hstep]
      cases hdone : p₁.completed? token with
      | some result =>
          refine ⟨result, ?_⟩
          simp only [bind, Except.bind, hdone]
          rfl
      | none =>
          obtain ⟨result, hresult⟩ := ih hrest
          refine ⟨result, ?_⟩
          simp only [bind, Except.bind, hdone]
          exact hresult

/-! ## The first fragment -/

/-- A run leaves the fragments alone that are there. -/
theorem exists_run_of_behind {s : Scan} {fragments : List Fragment} {calls : List OpenCall}
    (h : target.run manner source s ⟨fragments, calls⟩ = .ok p') :
    ∃ q, target.run manner source s ⟨[], calls⟩ = .ok q ∧
      p'.fragments = fragments ++ q.fragments := by
  have hbehind : (⟨fragments, calls⟩ : Progress) =
      (⟨[], calls⟩ : Progress).behind fragments := by
    rw [Progress.behind, List.append_nil]
  rw [run, hbehind, foldlM_step_behind] at h
  rw [run]
  cases hfold : s.tokens.foldlM (target.step manner source) ⟨[], calls⟩ with
  | error fault =>
      rw [hfold] at h
      cases h
  | ok q =>
      rw [hfold] at h
      cases hflaw : s.flaw with
      | some flaw =>
          rw [hflaw] at h
          cases h
      | none =>
          rw [hflaw] at h
          cases h
          exact ⟨q, rfl, rfl⟩

/-- The first fragment of a source is the call that the source begins with, and the other fragments
are those of what stands behind the call; or it is literal text. -/
theorem exists_first_fragment {here : Nat} {rest : Text}
    (h : target.run manner source (Mode.text.scan here (u :: rest)) {} = .ok p') :
    (u = dollar ∧ ∃ rendered body after q, rest = body ++ rightParen :: after ∧
      target.runCallOf manner source ((Mode.name 0 []).scan (here + 1) rest) {} =
        .ok (rendered, here + body.length + 2) ∧
      target.run manner source (Mode.text.scan (here + body.length + 2) after) {} = .ok q ∧
      p'.fragments = ⟨.call, rendered⟩ :: q.fragments) ∨
    ∃ t others, p'.fragments = ⟨.literal, t⟩ :: others := by
  by_cases hu : u = dollar
  · left
    subst hu
    have hrun : target.run manner source ((Mode.name 0 []).scan (here + 1) rest) {} = .ok p' := h
    obtain ⟨⟨rendered, stop⟩, hcall⟩ := exists_runCall_of_run hrun
    have hwithin : ({} : Progress).Within (.name 0 []) := ⟨rfl, rfl⟩
    obtain ⟨body, after, rfl, rfl, hbehind⟩ := run_of_runCallOf hwithin hcall
    have hstop : here + 1 + body.length + 1 = here + body.length + 2 := by omega
    rw [hstop] at hcall hbehind
    rw [hrun] at hbehind
    obtain ⟨q, hq, hfragments⟩ := exists_run_of_behind hbehind.symm
    exact ⟨rfl, rendered, body, after, q, rfl, hcall, hq, hfragments⟩
  · right
    obtain ⟨t, others, flaw, hscan⟩ := Mode.exists_literal_of_scan hu here rest
    rw [hscan, run_mk_cons] at h
    obtain ⟨q, -, hfragments⟩ := exists_run_of_behind h
    exact ⟨manner.escape t, q.fragments, hfragments⟩

/-- A source without fragments is empty. -/
theorem eq_nil_of_fragments {here : Nat} {t : Text}
    (h : target.run manner source (Mode.text.scan here t) {} = .ok p')
    (hfragments : p'.fragments = []) : t = [] := by
  cases t with
  | nil => rfl
  | cons u rest =>
      rcases exists_first_fragment h with ⟨-, _, _, _, _, -, -, -, hfirst⟩ | ⟨_, _, hfirst⟩
      · rw [hfragments] at hfirst
        cases hfirst
      · rw [hfragments] at hfirst
        cases hfirst

/-! ## Sources of calls -/

/-- The source of a call has the call for its only fragment. -/
theorem evaluate_of_evaluateCall {body rendered : Text}
    (h : target.evaluateCall manner (dollar :: (body ++ [rightParen])) 0 =
      .ok (rendered, body.length + 2)) :
    target.evaluate manner (dollar :: (body ++ [rightParen])) = .ok [⟨.call, rendered⟩] := by
  have hwithin : ({} : Progress).Within (.name 0 []) := ⟨rfl, rfl⟩
  have hcall := (evaluateCall_append [] (body ++ [rightParen])).symm.trans h
  obtain ⟨body', after, heq, hstop, hbehind⟩ := run_of_runCallOf hwithin hcall
  -- the call takes up all of the source, so nothing stands behind it
  have hafter : after = [] := by
    have hlength := congrArg List.length heq
    simp only [List.length_append, List.length_cons, List.length_nil] at hlength hstop
    exact List.length_eq_zero_iff.mp (by omega)
  subst hafter
  rw [evaluate_eq_run]
  exact congrArg (fun result : Except Fault Progress => do return (← result).fragments) hbehind

/-- A source that has a call for its only fragment is the source of that call. -/
theorem evaluateCall_of_evaluate {rendered : Text}
    (h : target.evaluate manner source = .ok [⟨.call, rendered⟩]) :
    target.evaluateCall manner source 0 = .ok (rendered, source.length) := by
  rw [evaluate_eq_run] at h
  obtain ⟨p, hrun, hp⟩ := bind_eq_ok_iff.mp h
  have hfragments : p.fragments = [⟨.call, rendered⟩] := Except.ok.inj hp
  cases source with
  | nil =>
      cases hrun
      cases hfragments
  | cons u rest =>
      rcases exists_first_fragment hrun with
        ⟨rfl, rendered', body, after, q, rfl, hcall, hq, hfirst⟩ | ⟨t, others, hfirst⟩
      · rw [hfragments] at hfirst
        obtain ⟨hsame, hrest⟩ := List.cons.inj hfirst
        cases hsame
        have hafter : after = [] := eq_nil_of_fragments hq hrest.symm
        subst hafter
        refine (evaluateCall_append [] _).trans (hcall.trans ?_)
        simp
      · rw [hfragments] at hfirst
        cases hfirst

/-- A call means the same wherever it stands. Where a call is written out, it takes up a part of the
source that ends with a parenthesis. That part is written out to the same as a source of its own,
and as a call with anything in front of it and behind it. Conversely, a source that has a call for
its only fragment is written out to the same as that call, which takes up all of it. This holds of
every target, however it renders calls, and of all ways to escape. -/
theorem parseCall_anywhere (target : Target) (source : Text) (options : Options) :
    (∀ offset out stop, target.parseCall source offset options = .ok (out, stop) →
      offset < stop ∧ stop ≤ source.length ∧ source[stop - 1]? = some rightParen ∧
        target.parse ((source.take stop).drop offset) options = .ok out ∧
        ∀ front back,
          target.parseCall (front ++ (source.take stop).drop offset ++ back) front.length options =
            .ok (out, front.length + stop - offset)) ∧
      ∀ rendered, target.evaluate (options.manner target) source = .ok [⟨.call, rendered⟩] →
        ∃ out, target.parse source options = .ok out ∧
          target.parseCall source 0 options = .ok (out, source.length) := by
  constructor
  · intro offset out stop h
    obtain ⟨hstart, hend, -, hparen, -⟩ := parseCall_alone h
    refine ⟨hstart, hend, hparen, ?_⟩
    obtain ⟨⟨rendered, stop'⟩, hcall, hout⟩ := bind_eq_ok_iff.mp h
    cases hout
    obtain ⟨before, body, after, rfl, rfl, rfl, hlocal⟩ := evaluateCall_local hcall
    rw [drop_take_call]
    constructor
    · have hself := hlocal [] []
      rw [List.length_nil, Nat.zero_add] at hself
      rw [parse, evaluate_of_evaluateCall hself]
      rfl
    · intro front back
      have hsource : front ++ dollar :: (body ++ [rightParen]) ++ back =
          front ++ dollar :: (body ++ rightParen :: back) := by simp
      rw [hsource, parseCall, hlocal front back]
      show Except.ok (_, _) = Except.ok (_, _)
      rw [show front.length + (before.length + body.length + 2) - before.length =
        front.length + body.length + 2 by omega]
  · intro rendered h
    refine ⟨target.output [⟨.call, rendered⟩], ?_, ?_⟩
    · rw [parse, h]
      rfl
    · rw [parseCall, evaluateCall_of_evaluate h]
      rfl

/-- A call with an escaped parenthesis and a refused call in it, between a literal and a flaw; and
the same call elsewhere. -/
theorem parseCall_anywhere_sample :
    let source : Text := "a$echo(\\),$lost(b))$("
    let call : Text := "$echo(\\),$lost(b))"
    let options : Options := { escape := fun t => "[" ++ t ++ "]" }
    sample.parseCall source 1 options = .ok ("[)][b]", 19) ∧
      (source.take 19).drop 1 = call ∧
      sample.parse call options = .ok "[)][b]" ∧
      sample.parseCall ("$" ++ call ++ ")") 1 options = .ok ("[)][b]", 19) ∧
      sample.evaluate (options.manner sample) call = .ok [⟨.call, "[)][b]"⟩] ∧
      sample.parseCall call 0 options = .ok ("[)][b]", 18) := by
  intro source call options
  have hcall : sample.parseCall source 1 options = .ok ("[)][b]", 19) := rfl
  have hslice : (source.take 19).drop 1 = call := rfl
  obtain ⟨-, -, -, hself, helsewhere⟩ :=
    (parseCall_anywhere sample source options).1 1 "[)][b]" 19 hcall
  rw [hslice] at hself helsewhere
  have heval : sample.evaluate (options.manner sample) call = .ok [⟨.call, "[)][b]"⟩] := rfl
  obtain ⟨out, hout, hwhole⟩ := (parseCall_anywhere sample call options).2 "[)][b]" heval
  have hsame : out = "[)][b]" := Except.ok.inj (hout.symm.trans hself)
  exact ⟨hcall, hslice, hself, helsewhere "$" ")", heval, hsame ▸ hwhole⟩

end Target

end Sigil
