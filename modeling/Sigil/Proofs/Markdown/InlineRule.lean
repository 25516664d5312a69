import Sigil.Markdown.InlineRule
import Sigil.Proofs.Expression.CallLocality

/-!
# The contract of the inline rule

A Markdown reader runs rules in turn and trusts them to keep to a contract
(`Markdown.rule_keeps_contract`). A rule that finds nothing, or fails, leaves the reader where it
was. A rule that finds something moves forward within the inline block, and moves alike whether or
not it is asked for tokens. It depends on nothing outside the block. All the rule counts on is that
the reader is lawful.
-/

namespace Sigil.Markdown

open CodeUnit

/-! ## A reader of one line -/

/-- What a reader of one line knows. -/
structure Line where
  source : Text
  pos : Nat
  stop : Nat
  /-- Text that no token holds yet. -/
  pending : Text := []
  tokens : List Token := []
  deriving DecidableEq

namespace Line

/-- The token that pending text becomes. -/
def textToken (l : Line) : Option Token :=
  if l.pending = [] then none else some ⟨Token.textType, "", 0, [], l.pending⟩

/-- A reader of one line, for examples. -/
def reader : Reader Line where
  source := source
  pos := pos
  stop := stop
  tokens := tokens
  moveTo pos l := { l with pos }
  push type tag nesting l := { l with
    pending := []
    tokens := l.tokens ++ l.textToken.toList ++ [{ type := type, tag := tag, nesting := nesting }] }
  amend f l := { l with tokens := l.tokens.dropLast ++ l.tokens.getLast?.toList.map f }

theorem type_textToken (l : Line) : ∀ t ∈ l.textToken, t.type = Token.textType := by
  intro t ht
  rw [textToken] at ht
  split at ht <;> cases ht
  rfl

theorem isLawful_reader : reader.IsLawful where
  source_push _ _ _ _ := rfl
  stop_push _ _ _ _ := rfl
  tokens_push _ _ _ l := ⟨l.textToken, l.type_textToken, rfl⟩
  source_amend _ _ := rfl
  stop_amend _ _ := rfl
  tokens_amend f l before t h := by
    show l.tokens.dropLast ++ l.tokens.getLast?.toList.map f = before ++ [f t]
    replace h : l.tokens = before ++ [t] := h
    rw [h, List.dropLast_concat, List.getLast?_concat]
    rfl
  source_moveTo _ _ := rfl
  pos_moveTo _ _ := rfl
  stop_moveTo _ _ := rfl
  tokens_moveTo _ _ := rfl

end Line

/-! ## Steps of the rule -/

variable {σ : Type} {reader : Reader σ} {target : Target} {settings : Settings} {silent : Bool}
  {s s' : σ}

namespace Reader

/-- The state behind a call that was found: there is a token for the call unless the reader is
silent, and the reader stands behind the call. -/
def behindCall (reader : Reader σ) (silent : Bool) (content : Text) (stop : Nat) (s : σ) : σ :=
  if silent then reader.moveTo stop s
  else
    let pushed := reader.push Token.callType "" 0 s
    let markup := ((reader.source pushed).take stop).drop (reader.pos s)
    let marked := reader.amend (fun token => { token with markup }) pushed
    reader.moveTo stop (reader.amend (fun token => { token with content }) marked)

/-- The reader stands behind the call, and still reads the same block. -/
theorem IsLawful.place_behindCall (h : reader.IsLawful) (silent : Bool) (content : Text)
    (stop : Nat) (s : σ) :
    reader.pos (reader.behindCall silent content stop s) = stop ∧
      reader.source (reader.behindCall silent content stop s) = reader.source s ∧
      reader.stop (reader.behindCall silent content stop s) = reader.stop s := by
  unfold behindCall
  split
  · exact ⟨h.pos_moveTo .., h.source_moveTo .., h.stop_moveTo ..⟩
  · refine ⟨h.pos_moveTo .., ?_, ?_⟩
    · rw [h.source_moveTo, h.source_amend, h.source_amend, h.source_push]
    · rw [h.stop_moveTo, h.stop_amend, h.stop_amend, h.stop_push]

/-- A silent reader gets no token. -/
theorem IsLawful.tokens_behindCall_silent (h : reader.IsLawful) (content : Text) (stop : Nat)
    (s : σ) :
    reader.tokens (reader.behindCall true content stop s) = reader.tokens s :=
  h.tokens_moveTo ..

/-- Any other reader gets a token for the call. Text that was pending comes first. -/
theorem IsLawful.tokens_behindCall (h : reader.IsLawful) (content : Text) (stop : Nat) (s : σ) :
    ∃ pending : Option Token, (∀ t ∈ pending, t.type = Token.textType) ∧
      reader.tokens (reader.behindCall false content stop s) =
        reader.tokens s ++ pending.toList ++
          [⟨Token.callType, "", 0, ((reader.source s).take stop).drop (reader.pos s), content⟩] := by
  obtain ⟨pending, htext, hpushed⟩ := h.tokens_push Token.callType "" 0 s
  refine ⟨pending, htext, ?_⟩
  have hmarked := h.tokens_amend
    (fun token => { token with markup := ((reader.source s).take stop).drop (reader.pos s) })
    _ _ _ hpushed
  simp only [behindCall, Bool.false_eq_true, if_false, h.tokens_moveTo, h.source_push]
  exact h.tokens_amend _ _ _ _ hmarked

end Reader

/-- The rule finds nothing where no dollar sign stands. -/
theorem rule_of_ne_dollar (h : (reader.source s)[reader.pos s]? ≠ some dollar) :
    rule reader target settings silent s = .ok false s := by
  show (if (reader.source s)[reader.pos s]? ≠ some dollar then _ else _ : Action σ Bool) s = _
  rw [if_pos h]
  rfl

/-- At a dollar sign the rule does what it finds there. -/
theorem rule_of_dollar (h : (reader.source s)[reader.pos s]? = some dollar) :
    rule reader target settings silent s =
      match call? target settings (reader.block s) (reader.pos s) with
      | .ok none => .ok false s
      | .ok (some (content, stop)) => .ok true (reader.behindCall silent content stop s)
      | .error fault => .error fault s := by
  show (if (reader.source s)[reader.pos s]? ≠ some dollar then _ else _ : Action σ Bool) s = _
  rw [if_neg (not_not.mpr h)]
  show EStateM.bind (ofExcept (call? target settings (reader.block s) (reader.pos s))) _ s = _
  cases call? target settings (reader.block s) (reader.pos s) with
  | error fault => rfl
  | ok found =>
      cases found with
      | none => rfl
      | some call => cases silent <;> rfl

/-- What the rule does depends on the call that can be read within the block, if there is one. -/
theorem rule_eq (reader : Reader σ) (target : Target) (settings : Settings) (silent : Bool)
    (s : σ) :
    rule reader target settings silent s =
      match target.parseCall (reader.block s) (reader.pos s) settings.options with
      | .ok (content, stop) => .ok true (reader.behindCall silent content stop s)
      | .error (.parse _) => .ok false s
      | .error fault => .error fault s := by
  by_cases hdollar : (reader.source s)[reader.pos s]? = some dollar
  · rw [rule_of_dollar hdollar, call?]
    cases target.parseCall (reader.block s) (reader.pos s) settings.options with
    | ok call => rfl
    | error fault => cases fault <;> rfl
  · have hblock : (reader.block s)[reader.pos s]? ≠ some dollar := by
      intro h
      rw [Reader.block, List.getElem?_take] at h
      split at h
      · exact hdollar h
      · cases h
    obtain ⟨fault, hfault⟩ := Target.parseCall_of_ne_dollar hblock settings.options
    rw [rule_of_ne_dollar hdollar, hfault]

/-! ## Outcomes -/

/-- A rule that finds nothing leaves the state as it was. -/
theorem eq_of_rule_ok_false (h : rule reader target settings silent s = .ok false s') :
    s' = s := by
  rw [rule_eq] at h
  split at h <;> cases h
  rfl

/-- A rule that fails leaves the state as it was. -/
theorem eq_of_rule_error {fault : Fault}
    (h : rule reader target settings silent s = .error fault s') : s' = s := by
  rw [rule_eq] at h
  split at h <;> cases h
  rfl

/-- A rule that finds a call moves over it. -/
theorem parseCall_of_rule (h : rule reader target settings silent s = .ok true s') :
    ∃ content stop,
      target.parseCall (reader.block s) (reader.pos s) settings.options = .ok (content, stop) ∧
        s' = reader.behindCall silent content stop s := by
  rw [rule_eq] at h
  split at h <;> cases h
  rename_i content stop hcall
  exact ⟨content, stop, hcall, rfl⟩

/-- The rule finds a call where one can be read within the block. -/
theorem rule_ok_true_iff (s : σ) :
    (∃ s', rule reader target settings silent s = .ok true s') ↔
      ∃ call, target.parseCall (reader.block s) (reader.pos s) settings.options = .ok call := by
  rw [rule_eq]
  cases target.parseCall (reader.block s) (reader.pos s) settings.options with
  | ok call => simp
  | error fault => cases fault <;> simp

/-- The rule fails where reading a call fails for another reason than that there is none. -/
theorem rule_error_iff (s : σ) (fault : Fault) :
    (∃ s', rule reader target settings silent s = .error fault s') ↔
      target.parseCall (reader.block s) (reader.pos s) settings.options = .error fault ∧
        ∀ e, fault ≠ .parse e := by
  constructor
  · rintro ⟨s', h⟩
    rw [rule_eq] at h
    split at h <;> cases h
    rename_i hforeign hcall
    exact ⟨hcall, hforeign⟩
  · rintro ⟨hcall, hforeign⟩
    refine ⟨s, ?_⟩
    rw [rule_eq, hcall]
    cases fault with
    | parse e => exact absurd rfl (hforeign e)
    | _ => rfl

/-- The markup of a token that holds the call a reader moves over. -/
def Reader.markup (reader : Reader σ) (s s' : σ) : Text :=
  ((reader.source s).take (reader.pos s')).drop (reader.pos s)

/-- A rule that finds a call moves from its dollar sign behind its parenthesis, within the block.
What the call stands for is what it is written out to by itself. -/
theorem place_of_rule (hreader : reader.IsLawful)
    (h : rule reader target settings silent s = .ok true s') :
    reader.pos s < reader.pos s' ∧ reader.pos s' ≤ reader.stop s ∧
      reader.pos s' ≤ (reader.source s).length ∧
      (reader.source s)[reader.pos s]? = some dollar ∧
      (reader.source s)[reader.pos s' - 1]? = some rightParen ∧
      ∃ content, target.parseCall (reader.markup s s') 0 settings.options =
          .ok (content, (reader.markup s s').length) ∧
        s' = reader.behindCall silent content (reader.pos s') s := by
  obtain ⟨content, stop, hcall, rfl⟩ := parseCall_of_rule h
  rw [Reader.markup, (hreader.place_behindCall silent _ _ s).1]
  obtain ⟨hpos, hstop, hdollar, hparen, halone⟩ := Target.parseCall_alone hcall
  rw [Reader.block] at hstop hdollar hparen halone
  rw [List.length_take] at hstop
  have hwithin : stop ≤ reader.stop s := by omega
  rw [List.take_take, Nat.min_eq_left hwithin] at halone
  rw [List.getElem?_take_of_lt (by omega)] at hdollar hparen
  exact ⟨hpos, hwithin, by omega, hdollar, hparen, content, halone, rfl⟩

/-- The call that a rule finds is read off the block. -/
theorem markup_of_rule (hreader : reader.IsLawful)
    (h : rule reader target settings silent s = .ok true s') :
    reader.markup s s' = ((reader.block s).take (reader.pos s')).drop (reader.pos s) := by
  obtain ⟨-, hstop, -⟩ := place_of_rule hreader h
  rw [Reader.markup, Reader.block, List.take_take, Nat.min_eq_left hstop]

/-- The token that a rule adds last is for the call it finds. -/
theorem getLast?_of_rule (hreader : reader.IsLawful)
    (h : rule reader target settings false s = .ok true s') :
    ∃ content, target.parseCall (reader.markup s s') 0 settings.options =
        .ok (content, (reader.markup s s').length) ∧
      (reader.tokens s').getLast? =
        some ⟨Token.callType, "", 0, reader.markup s s', content⟩ := by
  obtain ⟨-, -, -, -, -, content, halone, hs'⟩ := place_of_rule hreader h
  obtain ⟨pending, -, htokens⟩ :=
    hreader.tokens_behindCall content (reader.pos s') s
  rw [← hs'] at htokens
  refine ⟨content, halone, ?_⟩
  rw [htokens, List.getLast?_concat, Reader.markup]

/-- The answer of a rule, and where it leaves the reader. -/
def Reader.outcome (reader : Reader σ) : EStateM.Result Fault σ Bool → Except Fault Bool × Nat
  | .ok found s => (.ok found, reader.pos s)
  | .error fault s => (.error fault, reader.pos s)

/-- The answer and the place depend on the block and the offset alone, and not on whether the reader
is silent. -/
theorem outcome_rule (hreader : reader.IsLawful) (target : Target) (settings : Settings)
    (silent : Bool) (s : σ) :
    reader.outcome (rule reader target settings silent s) =
      match target.parseCall (reader.block s) (reader.pos s) settings.options with
      | .ok (_, stop) => (.ok true, stop)
      | .error (.parse _) => (.ok false, reader.pos s)
      | .error fault => (.error fault, reader.pos s) := by
  rw [rule_eq]
  cases target.parseCall (reader.block s) (reader.pos s) settings.options with
  | ok call => exact Prod.ext rfl (hreader.place_behindCall silent _ _ s).1
  | error fault => cases fault <;> rfl

/-- The rule keeps to the contract of a Markdown reader. It finds a call where one can be read
within the inline block, and fails where reading one fails for a reason of its own. If it finds
nothing, or fails, the state is as it was. If it finds a call, it moves from the dollar sign of the
call behind its parenthesis, within the block, and adds one token with the call as markup, behind
text that was pending, or none if it is silent. What the call stands for is what it is written out
to by itself. A silent rule gives the same answer and moves to the same place. Nothing outside the
block has a part in this, nor has anything that a reader knows beside it. -/
theorem rule_keeps_contract {σ : Type} {reader : Reader σ} (hreader : reader.IsLawful)
    (target : Target) (settings : Settings) (silent : Bool) (s : σ) :
    let run := rule reader target settings
    ((∃ s', run silent s = .ok true s') ↔
      ∃ call, target.parseCall (reader.block s) (reader.pos s) settings.options = .ok call) ∧
    (∀ fault, (∃ s', run silent s = .error fault s') ↔
      target.parseCall (reader.block s) (reader.pos s) settings.options = .error fault ∧
        ∀ e, fault ≠ .parse e) ∧
    (∀ s', run silent s = .ok false s' → s' = s) ∧
    (∀ fault s', run silent s = .error fault s' → s' = s) ∧
    (∀ s', run silent s = .ok true s' →
      reader.pos s < reader.pos s' ∧ reader.pos s' ≤ reader.stop s ∧
      reader.pos s' ≤ (reader.source s).length ∧
      (reader.source s)[reader.pos s]? = some dollar ∧
      (reader.source s)[reader.pos s' - 1]? = some rightParen ∧
      reader.source s' = reader.source s ∧ reader.stop s' = reader.stop s ∧
      ∃ markup content, markup = ((reader.source s).take (reader.pos s')).drop (reader.pos s) ∧
        target.parseCall markup 0 settings.options = .ok (content, markup.length) ∧
        if silent then reader.tokens s' = reader.tokens s
        else ∃ pending : Option Token, (∀ t ∈ pending, t.type = Token.textType) ∧
          reader.tokens s' = reader.tokens s ++ pending.toList ++
            [⟨Token.callType, "", 0, markup, content⟩]) ∧
    reader.outcome (run true s) = reader.outcome (run false s) ∧
    ∀ {τ : Type} (reader' : Reader τ), reader'.IsLawful → ∀ t : τ,
      reader'.pos t = reader.pos s → reader'.block t = reader.block s →
      reader'.outcome (rule reader' target settings silent t) =
        reader.outcome (run silent s) ∧
      ∀ s' t', run false s = .ok true s' → rule reader' target settings false t = .ok true t' →
        (reader'.tokens t').getLast? = (reader.tokens s').getLast? := by
  intro run
  refine ⟨rule_ok_true_iff s, rule_error_iff s, fun _ => eq_of_rule_ok_false,
    fun _ _ => eq_of_rule_error, ?_, ?_, ?_⟩
  · intro s' h
    obtain ⟨hpos, hstop, hlength, hdollar, hparen, content, halone, hs'⟩ := place_of_rule hreader h
    obtain ⟨-, hsource', hstop'⟩ := hreader.place_behindCall silent content (reader.pos s') s
    rw [← hs'] at hsource' hstop'
    refine ⟨hpos, hstop, hlength, hdollar, hparen, hsource', hstop', _, content, rfl, halone, ?_⟩
    cases silent with
    | true =>
        rw [if_pos rfl, hs']
        exact hreader.tokens_behindCall_silent ..
    | false =>
        obtain ⟨pending, htext, htokens⟩ :=
          hreader.tokens_behindCall content (reader.pos s') s
        rw [← hs'] at htokens
        exact ⟨pending, htext, htokens⟩
  · rw [outcome_rule hreader, outcome_rule hreader]
  · intro τ reader' hreader' t hpos hblock
    have houtcome : ∀ silent, reader'.outcome (rule reader' target settings silent t) =
        reader.outcome (run silent s) := by
      intro silent
      show _ = reader.outcome (rule reader target settings silent s)
      rw [outcome_rule hreader, outcome_rule hreader', hpos, hblock]
    refine ⟨houtcome silent, ?_⟩
    intro s' t' hs ht
    have hstop : reader'.pos t' = reader.pos s' := by
      have hplaces := houtcome false
      rw [hs, ht] at hplaces
      exact congrArg Prod.snd hplaces
    obtain ⟨content, halone, hlast⟩ := getLast?_of_rule hreader hs
    obtain ⟨content', halone', hlast'⟩ := getLast?_of_rule hreader' ht
    have hmarkup : reader'.markup t t' = reader.markup s s' := by
      rw [markup_of_rule hreader hs, markup_of_rule hreader' ht, hblock, hpos, hstop]
    rw [hmarkup, halone] at halone'
    cases halone'
    rw [hlast, hlast', hmarkup]

/-- A call within the block becomes a token behind the text in front of it, which becomes one too. It
is found also where other text stands behind the block. A call that ends behind the block is not,
and a group that fails for a reason of its own stops the reader. -/
theorem rule_keeps_contract_sample :
    let s : Line := { source := "see $echo(a) here", pos := 4, stop := 15, pending := "see " }
    let other : Line := { source := "see $echo(a) hereafter", pos := 4, stop := 15 }
    let short : Line := { s with stop := 11 }
    let broken : Target := { Target.sample with invoke := fun _ _ _ => .error (.failure "broken") }
    let text : Token := ⟨"text", "", 0, "", "see "⟩
    let call : Token := ⟨"notation", "", 0, "$echo(a)", "a"⟩
    Line.reader.IsLawful ∧
    rule Line.reader Target.sample {} false s =
      .ok true { s with pos := 12, pending := [], tokens := [text, call] } ∧
    rule Line.reader Target.sample {} false other =
      .ok true { other with pos := 12, tokens := [call] } ∧
    s.pos < 12 ∧ 12 ≤ s.stop ∧ [call].getLast? = [text, call].getLast? ∧
    (∃ s', rule Line.reader Target.sample {} false short = .ok false s' ∧ s' = short) ∧
    ∃ s', rule Line.reader broken {} false s = .error (.failure "broken") s' ∧ s' = s := by
  intro s other short broken text call
  have hlawful := Line.isLawful_reader
  have hfound : rule Line.reader Target.sample {} false s =
      .ok true { s with pos := 12, pending := [], tokens := [text, call] } := rfl
  have hother : rule Line.reader Target.sample {} false other =
      .ok true { other with pos := 12, tokens := [call] } := rfl
  have hshort : rule Line.reader Target.sample {} false short = .ok false short := rfl
  have hbroken : rule Line.reader broken {} false s = .error (.failure "broken") s := rfl
  obtain ⟨-, -, -, -, hmoves, -, hlocal⟩ := rule_keeps_contract hlawful Target.sample {} false s
  obtain ⟨-, -, hstays, -⟩ := rule_keeps_contract hlawful Target.sample {} false short
  obtain ⟨-, -, -, hstays', -⟩ := rule_keeps_contract hlawful broken {} false s
  obtain ⟨hpos, hstop, -⟩ := hmoves _ hfound
  obtain ⟨-, hlast⟩ := hlocal Line.reader hlawful other rfl rfl
  exact ⟨hlawful, hfound, hother, hpos, hstop, hlast _ _ hfound hother,
    ⟨_, hshort, hstays _ hshort⟩, ⟨_, hbroken, hstays' _ _ hbroken⟩⟩

end Sigil.Markdown
