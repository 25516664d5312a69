import Sigil.Expression.Grammar
import Sigil.Proofs.Expression.Steps

/-!
# Which sources are expressions

The automaton that reads a source brings no flaw to light exactly when the source is derivable in
the grammar (`Scan.ofText_flaw_eq_none_iff`). The automaton holds open calls as a depth, so what it
still demands of a source is written down as `Mode.Accepts`: the rest of a list of arguments, the
closing parenthesis, and then the same again for each enclosing call. Reading one unit and taking
that unit off the grammar agree in every mode (`Mode.accepts_cons_iff`), and the result follows by
induction on the rest of the source.
-/

namespace Sigil

open CodeUnit

namespace Grammar

/-! ## Lists of arguments, part by part -/

/-- Putting a comma in front of a list of arguments adds an empty argument. -/
theorem IsArguments.comma {rest : Text} (h : IsArguments rest) :
    IsArguments (CodeUnit.comma :: rest) :=
  .cons .nil h

/-- An escaped unit in front of a list of arguments belongs to the first of them. -/
theorem IsArguments.escape (u : CodeUnit) {rest : Text} (h : IsArguments rest) :
    IsArguments (backslash :: u :: rest) := by
  cases h with
  | last harg => exact .last (.escape u harg)
  | cons harg hrest => exact .cons (.escape u harg) hrest

/-- A call in front of a list of arguments belongs to the first of them. -/
theorem IsArguments.call {call rest : Text} (hcall : IsCall call) (h : IsArguments rest) :
    IsArguments (call ++ rest) := by
  cases h with
  | last harg => exact .last (.call hcall harg)
  | cons harg hrest =>
      rw [← List.append_assoc]
      exact .cons (.call hcall harg) hrest

/-- A unit without a meaning of its own belongs to the first argument. -/
theorem IsArguments.unit (u : CodeUnit) {rest : Text} (hbackslash : u ≠ backslash)
    (hdollar : u ≠ dollar) (hcomma : u ≠ CodeUnit.comma) (hparen : u ≠ rightParen)
    (h : IsArguments rest) : IsArguments (u :: rest) := by
  cases h with
  | last harg => exact .last (.unit u hbackslash hdollar hcomma hparen harg)
  | cons harg hrest => exact .cons (.unit u hbackslash hdollar hcomma hparen harg) hrest

/-- What a list of arguments begins with, and what remains behind it. -/
inductive Leads : Text → Prop where
  | nil : Leads []
  | comma {rest : Text} (hrest : IsArguments rest) : Leads (CodeUnit.comma :: rest)
  | escape (u : CodeUnit) {rest : Text} (hrest : IsArguments rest) : Leads (backslash :: u :: rest)
  | call {call rest : Text} (hcall : IsCall call) (hrest : IsArguments rest) : Leads (call ++ rest)
  | unit (u : CodeUnit) {rest : Text} (hbackslash : u ≠ backslash) (hdollar : u ≠ dollar)
      (hcomma : u ≠ CodeUnit.comma) (hparen : u ≠ rightParen) (hrest : IsArguments rest) :
      Leads (u :: rest)

/-- Every list of arguments is empty or has a first part with a list of arguments behind it. -/
theorem IsArguments.leads {args : Text} (h : IsArguments args) : Leads args := by
  cases h with
  | last harg =>
      cases harg with
      | nil => exact .nil
      | escape u hrest => exact .escape u (.last hrest)
      | call hcall hrest => exact .call hcall (.last hrest)
      | unit u h₁ h₂ h₃ h₄ hrest => exact .unit u h₁ h₂ h₃ h₄ (.last hrest)
  | cons harg htail =>
      cases harg with
      | nil => exact .comma htail
      | escape u hrest => exact .escape u (.cons hrest htail)
      | call hcall hrest =>
          rw [List.append_assoc]
          exact .call hcall (.cons hrest htail)
      | unit u h₁ h₂ h₃ h₄ hrest => exact .unit u h₁ h₂ h₃ h₄ (.cons hrest htail)

/-! ## What is still to come -/

/-- The text completes a name of which `part` was read, and goes on behind a parenthesis. -/
def Names (part : Text) (after : Text → Prop) (rest : Text) : Prop :=
  ∃ more tail, rest = more ++ leftParen :: tail ∧
    (match part with
      | [] => more.isName
      | _ :: _ => more.all continuesName) = true ∧ after tail

/-- The text completes the arguments of a call, and goes on behind its parenthesis. -/
def Ends (after : Text → Prop) (rest : Text) : Prop :=
  ∃ args tail, rest = args ++ rightParen :: tail ∧ IsArguments args ∧ after tail

/-- A dollar sign in front of what `Names` and `Ends` describe begins a call. -/
theorem names_nil_iff {after : Text → Prop} {rest : Text} :
    Names [] (Ends after) rest ↔
      ∃ call tail, dollar :: rest = call ++ tail ∧ IsCall call ∧ after tail := by
  constructor
  · rintro ⟨name, _, rfl, hname, args, tail, rfl, hargs, htail⟩
    exact ⟨_, tail, by simp, .mk hname hargs, htail⟩
  · rintro ⟨_, tail, heq, ⟨hname, hargs⟩, htail⟩
    rename_i name args
    refine ⟨name, args ++ rightParen :: tail, ?_, hname, args, tail, rfl, hargs, htail⟩
    simpa using heq

/-- No source that ends behind a dollar sign and part of a name completes the name. -/
theorem not_names_nil {part : Text} {after : Text → Prop} : ¬ Names part after [] := by
  rintro ⟨more, tail, heq, -⟩
  simp at heq

/-- The first unit of a name. -/
theorem names_nil_cons {after : Text → Prop} {u : CodeUnit} {rest : Text} :
    Names [] after (u :: rest) ↔ u.beginsName = true ∧ Names [u] after rest := by
  constructor
  · rintro ⟨more, tail, heq, hname, htail⟩
    cases more with
    | nil => simp [Text.isName] at hname
    | cons v more =>
        obtain ⟨rfl, rfl⟩ := List.cons.inj heq
        simp only [Text.isName, Bool.and_eq_true] at hname
        exact ⟨hname.1, more, tail, rfl, hname.2, htail⟩
  · rintro ⟨hu, more, tail, rfl, hmore, htail⟩
    exact ⟨u :: more, tail, rfl, by simp [Text.isName, hu, hmore], htail⟩

/-- A name goes on, or ends at a parenthesis. -/
theorem names_cons_cons {v : CodeUnit} {part : Text} {after : Text → Prop} {u : CodeUnit}
    {rest : Text} :
    Names (v :: part) after (u :: rest) ↔
      if u.continuesName = true then Names (v :: part ++ [u]) after rest
      else u = leftParen ∧ after rest := by
  constructor
  · rintro ⟨more, tail, heq, hmore, htail⟩
    cases more with
    | nil =>
        obtain ⟨rfl, rfl⟩ := List.cons.inj heq
        exact ⟨rfl, htail⟩
    | cons w more =>
        obtain ⟨rfl, rfl⟩ := List.cons.inj heq
        simp only [List.all_cons, Bool.and_eq_true] at hmore
        rw [if_pos hmore.1]
        exact ⟨more, tail, rfl, hmore.2, htail⟩
  · split
    · rename_i hu
      rintro ⟨more, tail, rfl, hmore, htail⟩
      refine ⟨u :: more, tail, rfl, ?_, htail⟩
      simpa [hu] using hmore
    · rintro ⟨rfl, htail⟩
      exact ⟨[], rest, rfl, rfl, htail⟩

/-- Arguments do not end at the end of a source. -/
theorem not_ends_nil {after : Text → Prop} : ¬ Ends after [] := by
  rintro ⟨args, tail, heq, -⟩
  simp at heq

/-- What the first unit of the rest of some arguments can be, and what follows it. -/
theorem ends_cons_iff {after : Text → Prop} {u : CodeUnit} {rest : Text} :
    Ends after (u :: rest) ↔
      if u = backslash then ∃ v tail, rest = v :: tail ∧ Ends after tail
      else if u = dollar then Names [] (Ends (Ends after)) rest
      else if u = comma then Ends after rest
      else if u = rightParen then after rest
      else Ends after rest := by
  constructor
  -- what the list of arguments begins with decides what the unit is
  · rintro ⟨args, tail, heq, hargs, htail⟩
    cases hargs.leads with
    | nil =>
        obtain ⟨rfl, rfl⟩ := List.cons.inj heq
        exact htail
    | comma hrest =>
        obtain ⟨rfl, rfl⟩ := List.cons.inj heq
        exact ⟨_, tail, rfl, hrest, htail⟩
    | escape v hrest =>
        obtain ⟨rfl, rfl⟩ := List.cons.inj heq
        exact ⟨v, _, rfl, _, tail, rfl, hrest, htail⟩
    | call hcall hrest =>
        rename_i call args
        have hu : u = dollar := by
          cases hcall
          exact (List.cons.inj heq).1
        subst hu
        refine names_nil_iff.mpr ⟨call, args ++ rightParen :: tail, ?_, hcall, ?_⟩
        · rw [heq, List.append_assoc]
        · exact ⟨args, tail, rfl, hrest, htail⟩
    | unit v hbackslash hdollar hcomma hparen hrest =>
        obtain ⟨rfl, rfl⟩ := List.cons.inj heq
        rw [if_neg hbackslash, if_neg hdollar, if_neg hcomma, if_neg hparen]
        exact ⟨_, tail, rfl, hrest, htail⟩
  · intro h
    split at h
    · rename_i hu
      obtain ⟨v, _, rfl, args, tail, rfl, hargs, htail⟩ := h
      exact ⟨backslash :: v :: args, tail, by rw [hu]; rfl, .escape v hargs, htail⟩
    split at h
    · rename_i hu
      obtain ⟨call, _, heq, hcall, args, tail, rfl, hargs, htail⟩ := names_nil_iff.mp h
      refine ⟨call ++ args, tail, ?_, .call hcall hargs, htail⟩
      rw [hu, heq, List.append_assoc]
    split at h
    · rename_i hu
      obtain ⟨args, tail, rfl, hargs, htail⟩ := h
      exact ⟨comma :: args, tail, by rw [hu]; rfl, hargs.comma, htail⟩
    split at h
    · rename_i hu
      exact ⟨[], rest, by rw [hu]; rfl, .last .nil, h⟩
    · rename_i hbackslash hdollar hcomma hparen
      obtain ⟨args, tail, rfl, hargs, htail⟩ := h
      exact ⟨u :: args, tail, rfl, .unit u hbackslash hdollar hcomma hparen hargs, htail⟩

/-- A dollar sign that no backslash escapes begins a call. -/
theorem isExpression_dollar_iff {rest : Text} :
    IsExpression (dollar :: rest) ↔ Names [] (Ends IsExpression) rest := by
  rw [names_nil_iff]
  constructor
  -- a dollar sign is no unit by itself, and no escape begins with it
  · intro h
    generalize ht : dollar :: rest = t at h
    cases h with
    | nil => cases ht
    | escape hrest => cases ht
    | call hcall hrest => exact ⟨_, _, rfl, hcall, hrest⟩
    | unit u hdollar hescape hrest => exact absurd (List.cons.inj ht).1.symm hdollar
  · rintro ⟨call, tail, heq, hcall, htail⟩
    rw [heq]
    exact .call hcall htail

/-- A backslash escapes a dollar sign. -/
theorem isExpression_escape_iff {rest : Text} :
    IsExpression (backslash :: dollar :: rest) ↔ IsExpression rest := by
  constructor
  · intro h
    generalize ht : backslash :: dollar :: rest = t at h
    cases h with
    | nil => cases ht
    | escape hrest => cases ht; exact hrest
    | call hcall hrest => cases hcall; cases ht
    | unit u hdollar hescape hrest =>
        obtain ⟨rfl, rfl⟩ := List.cons.inj ht
        exact absurd rfl (hescape rfl)
  · exact .escape

/-- Every other unit stands for itself. -/
theorem isExpression_unit_iff {u : CodeUnit} {rest : Text} (hdollar : u ≠ dollar)
    (hescape : u = backslash → rest.head? ≠ some dollar) :
    IsExpression (u :: rest) ↔ IsExpression rest := by
  constructor
  · intro h
    generalize ht : u :: rest = t at h
    cases h with
    | nil => cases ht
    | escape hrest =>
        obtain ⟨rfl, rfl⟩ := List.cons.inj ht
        exact absurd rfl (hescape rfl)
    | call hcall hrest =>
        cases hcall
        exact absurd (List.cons.inj ht).1 hdollar
    | unit v _ _ hrest =>
        obtain ⟨rfl, rfl⟩ := List.cons.inj ht
        exact hrest
  · exact .unit u hdollar hescape

end Grammar

/-! ## Modes and the grammar -/

open Grammar

/-- The text completes the arguments of a call that `depth` calls enclose, then those of each of
these calls, and goes on as an expression. -/
def Grammar.Closes : Nat → Text → Prop
  | 0 => Ends IsExpression
  | depth + 1 => Ends (Closes depth)

namespace Mode

/-- The grammar allows the text to follow what was read up to the mode. -/
def Accepts : Mode → Text → Prop
  | text, rest => IsExpression rest
  | textEscape, rest => IsExpression (backslash :: rest)
  | name depth part, rest => Names part (Closes depth) rest
  | argument depth, rest => Closes depth rest
  | argumentEscape depth, rest => ∃ u tail, rest = u :: tail ∧ Closes depth tail

/-- The rest of a source behind an opening parenthesis goes on behind the closing one. -/
theorem closes_eq (depth : Nat) : Closes depth = Ends (afterClose depth).Accepts := by
  cases depth <;> rfl

/-- A source may end in a mode if the grammar allows nothing to follow. -/
theorem finish_flaw_eq_none_iff (mode : Mode) (here : Nat) :
    (mode.finish here).flaw = none ↔ mode.Accepts [] := by
  cases mode with
  | text => simpa [finish, Accepts] using IsExpression.nil
  | textEscape =>
      have h : IsExpression [backslash] := .unit backslash (by decide) (by simp) .nil
      simpa [finish, Accepts] using h
  | name depth part =>
      have h : ¬ Names part (Closes depth) [] := not_names_nil
      cases part <;> simpa [finish, Accepts] using h
  | argument depth =>
      have h : ¬ Closes depth [] := by rw [closes_eq]; exact not_ends_nil
      simpa [finish, Accepts] using h
  | argumentEscape depth => simp [finish, Accepts]

/-- Reading a unit and taking it off the grammar agree. -/
theorem accepts_cons_iff (mode : Mode) (here : Nat) (u : CodeUnit) (rest : Text) :
    mode.Accepts (u :: rest) ↔ ∃ next, (mode.read here u).2 = .ok next ∧ next.Accepts rest := by
  -- mode by mode, each branch of reading is one of the cases that the grammar leaves
  cases mode with
  | text =>
      simp only [read, Accepts]
      split
      · rename_i hdollar
        simpa [hdollar, Closes] using isExpression_dollar_iff
      split
      · rename_i hbackslash
        simp [hbackslash]
      · rename_i hdollar hbackslash
        simpa using isExpression_unit_iff hdollar (absurd · hbackslash)
  | textEscape =>
      simp only [read, Accepts]
      split
      · rename_i hdollar
        simpa [hdollar] using isExpression_escape_iff
      rename_i hdollar
      have hescape : IsExpression (backslash :: u :: rest) ↔ IsExpression (u :: rest) :=
        isExpression_unit_iff (by decide) (by simpa using hdollar)
      split
      · rename_i hbackslash
        simpa [hbackslash] using hescape
      · rename_i hbackslash
        simpa using hescape.trans (isExpression_unit_iff hdollar (absurd · hbackslash))
  | name depth part =>
      cases part with
      | nil =>
          have h : Names [] (Closes depth) (u :: rest) ↔
              u.beginsName = true ∧ Names [u] (Closes depth) rest := names_nil_cons
          by_cases hu : u.beginsName = true
          · simpa [read, Accepts, hu] using h
          · simpa [read, Accepts, hu] using h
      | cons v part =>
          simp only [read, Accepts, names_cons_cons]
          split
          · simp
          split
          · rename_i hparen
            simp [hparen]
          · rename_i hparen
            simp [hparen]
  | argument depth =>
      -- the depth matters behind the closing parenthesis alone
      have h : Ends (afterClose depth).Accepts (u :: rest) ↔ _ := ends_cons_iff
      rw [← closes_eq] at h
      simp only [read, Accepts, h]
      split
      · simp
      split
      · simp [Closes]
      split
      · simp
      split
      · simp
      · simp
  | argumentEscape depth =>
      constructor
      · rintro ⟨_, _, heq, h⟩
        obtain ⟨rfl, rfl⟩ := List.cons.inj heq
        exact ⟨argument depth, rfl, h⟩
      · rintro ⟨_, hread, h⟩
        cases hread
        exact ⟨u, rest, rfl, h⟩

/-- Reading the rest of a source brings no flaw to light exactly when the grammar allows it. -/
theorem scan_flaw_eq_none_iff (mode : Mode) (here : Nat) (rest : Text) :
    (mode.scan here rest).flaw = none ↔ mode.Accepts rest := by
  induction rest generalizing mode here with
  | nil => exact finish_flaw_eq_none_iff mode here
  | cons u rest ih =>
      rw [accepts_cons_iff mode here, scan]
      obtain ⟨token?, result⟩ := mode.read here u
      cases result with
      | error flaw => cases token? <;> simp [Scan.cons]
      | ok next => cases token? <;> simp [Scan.cons, ih]

end Mode

/-- A source has no flaw exactly when it is an expression. -/
theorem Scan.ofText_flaw_eq_none_iff (source : Text) :
    (Scan.ofText source).flaw = none ↔ IsExpression source :=
  Mode.scan_flaw_eq_none_iff .text 0 source

/-! ## Evaluation and the grammar -/

namespace Target

/-- Every group exists, and no call is refused. -/
structure Total (target : Target) : Prop where
  known (name : Text) : target.known name = true
  invoke (name : Text) (keys texts : List Text) :
    ∃ rendered, target.invoke name keys texts = .ok rendered

/-- Every call is rendered: none is refused for want of its group, and no group refuses one. -/
structure Obliges (target : Target) (manner : Manner) : Prop where
  known (callee : Text) : manner.strict = true → target.known callee = true
  invoke (callee : Text) (keys texts : List Text) :
    ∃ rendered, target.invoke callee keys texts = .ok rendered

variable {target : Target} {manner : Manner}

theorem Total.obliges (htarget : target.Total) (manner : Manner) : target.Obliges manner :=
  ⟨fun callee _ => htarget.known callee, htarget.invoke⟩

/-- What is rendered is the call, or what replaces a call of a group that is not there. -/
theorem Obliges.renderCall (htarget : target.Obliges manner) (source : Text) (stop : Nat)
    (callee : Text) (args : List Argument) :
    ∃ rendered, target.renderCall manner source stop callee args = .ok rendered := by
  by_cases hknown : target.known callee = true
  · obtain ⟨rendered, hrendered⟩ :=
      htarget.invoke callee (args.map Argument.key) (args.map Argument.text)
    exact ⟨rendered, by simp [Target.renderCall, hknown, hrendered]⟩
  · exact ⟨Text.join " " (args.map Argument.text), by simp only [Target.renderCall, if_neg hknown]⟩

/-- An obliging target takes every token. -/
theorem Obliges.step (htarget : target.Obliges manner) (source : Text) (p : Progress)
    (token : Token) :
    ∃ p', target.step manner source p token = .ok p' := by
  obtain ⟨fragments, calls⟩ := p
  cases token with
  | literal t => exact ⟨_, rfl⟩
  | call callee stop =>
      have hpermitted : ¬(manner.strict && !target.known callee) = true := by
        have hknown := htarget.known callee
        simpa using hknown
      refine ⟨⟨fragments, { name := callee } :: calls⟩, ?_⟩
      simp only [Target.step, if_neg hpermitted]
  | unit u => cases calls <;> exact ⟨_, rfl⟩
  | comma => cases calls <;> exact ⟨_, rfl⟩
  | close stop =>
      cases calls with
      | nil => exact ⟨_, rfl⟩
      | cons c outer =>
          obtain ⟨rendered, hrendered⟩ :=
            htarget.renderCall source stop c.name c.completeArgument.args
          refine ⟨(⟨fragments, outer⟩ : Progress).receive rendered, ?_⟩
          rw [step_close, hrendered]
          rfl

/-- An obliging target takes all tokens of a scan, and fails at its flaw alone. -/
theorem Obliges.run (htarget : target.Obliges manner) (source : Text) (s : Scan) (p : Progress) :
    ∃ p', target.run manner source s p =
      match s.flaw with
      | some (flaw, offset) => giveUp source offset (.flaw flaw)
      | none => .ok p' := by
  obtain ⟨tokens, flaw⟩ := s
  have htokens : ∃ p', tokens.foldlM (target.step manner source) p = .ok p' := by
    induction tokens generalizing p with
    | nil => exact ⟨p, rfl⟩
    | cons token rest ih =>
        obtain ⟨p', hstep⟩ := htarget.step source p token
        obtain ⟨last, hrest⟩ := ih p'
        exact ⟨last, by rw [List.foldlM_cons, hstep]; exact hrest⟩
  obtain ⟨p', hp'⟩ := htokens
  exact ⟨p', by simp only [Target.run, hp']; rfl⟩

/-- An obliging target evaluates every expression. Any other source it gives up at a flaw. -/
theorem Obliges.evaluate (htarget : target.Obliges manner) (source : Text) :
    (IsExpression source ∧ ∃ fragments, target.evaluate manner source = .ok fragments) ∨
      (¬ IsExpression source ∧ ∃ flaw offset,
        target.evaluate manner source = giveUp source offset (.flaw flaw)) := by
  obtain ⟨p', hrun⟩ := htarget.run source (Scan.ofText source) {}
  have hflaw := Scan.ofText_flaw_eq_none_iff source
  rw [evaluate_eq_run, hrun]
  cases hscan : (Scan.ofText source).flaw with
  | none => exact .inl ⟨hflaw.mp hscan, _, rfl⟩
  | some flaw => exact .inr ⟨fun h => by simp [hflaw.mpr h] at hscan, flaw.1, flaw.2, rfl⟩

/-- A total target evaluates every expression in any manner. -/
theorem Total.evaluate (htarget : target.Total) (manner : Manner) (source : Text) :
    (IsExpression source ∧ ∃ fragments, target.evaluate manner source = .ok fragments) ∨
      (¬ IsExpression source ∧ ∃ flaw offset,
        target.evaluate manner source = giveUp source offset (.flaw flaw)) :=
  (htarget.obliges manner).evaluate source

/-- A target on which every group exists and no call is refused writes out exactly the expressions.
On any other source it gives up at a flaw of the source, whatever its last pass would do. -/
theorem parse_ok_iff_isExpression (target : Target) (htarget : target.Total) (options : Options)
    (source : Text) :
    ((∃ text, target.parse source options = .ok text) ↔ IsExpression source) ∧
      (¬ IsExpression source → ∃ fault : ParseFault,
        fault.cause.kind = .malformed ∧ fault.source = source ∧
        target.evaluate (options.manner target) source = .error (.parse fault) ∧
        ∀ translate, { target with translate := translate : Target }.parse source options =
          .error (.parse fault)) := by
  rcases htarget.evaluate (options.manner target) source with
    ⟨hsource, fragments, heval⟩ | ⟨hsource, flaw, offset, heval⟩
  · refine ⟨⟨fun _ => hsource, fun _ => ⟨target.output fragments, ?_⟩⟩, fun h => absurd hsource h⟩
    rw [parse, heval]
    rfl
  · constructor
    · constructor
      · rintro ⟨text, htext⟩
        rw [parse, heval] at htext
        cases htext
      · exact fun h => absurd h hsource
    · intro _
      refine ⟨⟨.flaw flaw, source, offset⟩, rfl, rfl, heval, ?_⟩
      intro translate
      -- evaluation does not look at the last pass, so it gives up in the same way
      have hsame : { target with translate := translate : Target }.evaluate
          (options.manner target) source = target.evaluate (options.manner target) source := rfl
      rw [parse]
      simp only [Options.manner] at hsame heval ⊢
      rw [hsame, heval]
      rfl

/-- An argument may hold an escaped unit and a call, and all arguments may be empty; a source that
ends behind a comma is no expression. -/
theorem parse_ok_iff_isExpression_sample :
    let target : Target :=
      { sample with known := fun _ => true, invoke := fun _ _ texts => .ok texts.flatten }
    target.Total ∧ (∃ text, target.parse "$f(\\),$g(,))\\" = .ok text) ∧
      ¬ IsExpression "$f(a," ∧
      ∃ fault : ParseFault, fault.cause.kind = .malformed ∧
        target.parse "$f(a," = .error (.parse fault) := by
  intro target
  have htarget : target.Total := ⟨fun _ => rfl, fun _ _ texts => ⟨texts.flatten, rfl⟩⟩
  have hsource : IsExpression "$f(\\),$g(,))\\" :=
    (Scan.ofText_flaw_eq_none_iff _).mp (by decide)
  have hother : ¬ IsExpression "$f(a," :=
    mt (Scan.ofText_flaw_eq_none_iff _).mpr (by decide)
  obtain ⟨fault, hkind, -, -, hfault⟩ :=
    (parse_ok_iff_isExpression target htarget {} "$f(a,").2 hother
  exact ⟨htarget, (parse_ok_iff_isExpression target htarget {} _).1.mpr hsource, hother, fault,
    hkind, hfault target.translate⟩

end Target

end Sigil
