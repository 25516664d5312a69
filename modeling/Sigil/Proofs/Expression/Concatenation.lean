import Sigil.Proofs.Expression.CallLocality
import Sigil.Proofs.Expression.Preservation

/-!
# Sources put together

A source without a flaw is read in the same way in front of another, and leaves the automaton
between calls (`Mode.scan_append`). So its tokens come first and those of the other source behind
them, at greater offsets, except that a literal at the seam becomes one. Evaluation puts fragments
together in the same way (`Target.evaluate_append`): behind the first source no call is open, a step
does not look at the fragments that are there, and offsets enter faults alone.
-/

namespace Sigil

open CodeUnit

/-! ## Tokens in front of tokens -/

/-- Put the tokens of a scan in front of another scan. Literals at the seam become one. -/
def Scan.append (s s' : Scan) : Scan := ⟨s.tokens.foldr Token.cons s'.tokens, s'.flaw⟩

/-- A token in front of a scan is in front of everything. -/
theorem Scan.append_cons (token : Token) (s s' : Scan) :
    (s.cons token).append s' = (s.append s').cons token := by
  obtain ⟨tokens, flaw⟩ := s
  cases token with
  | literal t =>
      cases tokens with
      | nil => rfl
      | cons next rest =>
          cases next with
          | literal t' => exact (cons_literal_literal (append ⟨rest, flaw⟩ s') t t').symm
          | _ => rfl
  | _ => rfl

/-- A literal stays by itself in front of anything but a literal. -/
theorem Token.cons_literal_of_head? {tokens : List Token}
    (h : ∀ t', tokens.head? ≠ some (.literal t')) (t : Text) :
    Token.cons (.literal t) tokens = .literal t :: tokens := by
  cases tokens with
  | nil => rfl
  | cons next rest =>
      cases next with
      | literal t' => exact absurd rfl (h t')
      | _ => rfl

/-- No other token becomes one with what is behind it. -/
theorem Token.cons_of_ne_literal {token : Token} (h : ∀ t, token ≠ .literal t)
    (tokens : List Token) : Token.cons token tokens = token :: tokens := by
  cases token with
  | literal t => exact absurd rfl (h t)
  | _ => rfl

/-- Literals are not empty, and no two are neighbours. -/
inductive Token.Tidy : List Token → Prop where
  | nil : Tidy []
  | literal {t : Text} {rest : List Token} (ht : t ≠ [])
      (hnext : ∀ t', rest.head? ≠ some (.literal t')) (hrest : Tidy rest) :
      Tidy (.literal t :: rest)
  | other {token : Token} {rest : List Token} (htoken : ∀ t, token ≠ .literal t)
      (hrest : Tidy rest) : Tidy (token :: rest)

/-- A literal that is put in front becomes one with another. -/
theorem Token.Tidy.cons_literal {t : Text} (ht : t ≠ []) {tokens : List Token} (h : Tidy tokens) :
    Tidy (Token.cons (.literal t) tokens) := by
  cases h with
  | nil => exact .literal ht nofun .nil
  | literal ht' hnext hrest => exact .literal (List.append_ne_nil_of_left_ne_nil ht _) hnext hrest
  | @other token rest htoken hrest =>
      have hnext : ∀ t', (token :: rest).head? ≠ some (.literal t') :=
        fun t' heq => htoken t' (Option.some.inj heq)
      rw [Token.cons_literal_of_head? hnext]
      exact .literal ht hnext (.other htoken hrest)

theorem Token.Tidy.cons {token : Token} (htoken : ∀ t, token = .literal t → t ≠ [])
    {tokens : List Token} (h : Tidy tokens) : Tidy (Token.cons token tokens) := by
  cases token with
  | literal t => exact h.cons_literal (htoken t rfl)
  | _ => exact .other nofun h

/-- A tidy literal is not empty. -/
theorem Token.Tidy.literal_ne_nil {tokens : List Token} (h : Tidy tokens) {t : Text}
    (ht : .literal t ∈ tokens) : t ≠ [] := by
  induction h with
  | nil => cases ht
  | literal hne _ _ ih =>
      cases ht with
      | head => exact hne
      | tail _ ht => exact ih ht
  | other htoken _ ih =>
      cases ht with
      | head => exact absurd rfl (htoken t)
      | tail _ ht => exact ih ht

namespace Mode

/-- No literal is empty that a unit completes. -/
theorem literal_ne_nil_of_read {mode : Mode} {here : Nat} {u : CodeUnit} {t : Text}
    (h : (mode.read here u).1 = some (.literal t)) : t ≠ [] := by
  have hread := mode.transition_read here u
  rw [h] at hread
  generalize (mode.read here u).2 = result at hread
  cases hread <;> exact List.cons_ne_nil _ _

/-- The tokens of a source are tidy. -/
theorem tidy_scan (mode : Mode) (here : Nat) (t : Text) :
    Token.Tidy (mode.scan here t).tokens := by
  induction t generalizing mode here with
  | nil =>
      cases mode with
      | textEscape => exact .literal (List.cons_ne_nil _ _) nofun .nil
      | name depth part =>
          cases part with
          | nil => exact .nil
          | cons v part => exact .other nofun .nil
      | _ => exact .nil
  | cons u rest ih =>
      have hbehind : Token.Tidy (behind (mode.read here u).2 (here + 1) rest).tokens := by
        cases (mode.read here u).2 with
        | ok next => exact ih next (here + 1)
        | error flaw => exact .nil
      rw [scan_cons]
      split
      · exact hbehind
      · rename_i token htoken
        exact hbehind.cons fun t heq => literal_ne_nil_of_read (heq ▸ htoken)

/-! ## Reading one source behind another -/

/-- Only a backslash can be read and left pending. -/
theorem eq_backslash_of_read {mode : Mode} {here : Nat} {u : CodeUnit}
    (h : (mode.read here u).2 = .ok textEscape) : u = backslash := by
  have hread := mode.transition_read here u
  rw [h] at hread
  generalize (mode.read here u).1 = token? at hread
  cases hread with
  | textBackslash hu | escapedBackslash hu => exact hu

/-- A source without a flaw is read in the same way in front of another one, and the other one is
read from between calls on, unless a backslash meets a dollar sign. -/
theorem scan_append {mode : Mode} {here : Nat} {a b : Text}
    (hflaw : (mode.scan here a).flaw = none)
    (hseam : (mode.pending ++ a).getLast? = some backslash → b.head? ≠ some dollar) :
    mode.scan here (a ++ b) = (mode.scan here a).append (text.scan (here + a.length) b) := by
  induction a generalizing mode here with
  | nil =>
      cases mode with
      | text => rfl
      | textEscape => exact scan_textEscape here (hseam rfl)
      | name depth part => cases part <;> cases hflaw
      | argument | argumentEscape => cases hflaw
  | cons u a ih =>
      rw [scan_cons] at hflaw
      rw [List.cons_append, scan_cons, scan_cons]
      cases hread : (mode.read here u).2 with
      | error flaw =>
          rw [hread] at hflaw
          split at hflaw <;> cases hflaw
      | ok next =>
          have hnext : (next.scan (here + 1) a).flaw = none := by
            rw [hread] at hflaw
            split at hflaw <;> exact hflaw
          -- what is pending behind the unit is the unit, so the last unit stays the last
          have hlast : (next.pending ++ a).getLast? = some backslash →
              b.head? ≠ some dollar := by
            intro h
            refine hseam ?_
            cases a with
            | cons v a => simpa using h
            | nil =>
                cases next with
                | textEscape =>
                    rw [eq_backslash_of_read hread, List.getLast?_concat]
                | _ => cases h
          have hrest := ih hnext hlast
          rw [Nat.add_right_comm, Nat.add_assoc, ← List.length_cons] at hrest
          cases (mode.read here u).1 with
          | none => exact hrest
          | some token =>
              show (next.scan (here + 1) (a ++ b)).cons token =
                ((next.scan (here + 1) a).cons token).append _
              rw [hrest, Scan.append_cons]

/-! ## Offsets -/

end Mode

/-- The token farther on in a source. -/
def Token.shift (n : Nat) : Token → Token
  | .call callee stop => .call callee (stop + n)
  | .close stop => .close (stop + n)
  | token => token

/-- The flaw farther on in a source. -/
def Flaw.shift (n : Nat) (flaw : Flaw × Nat) : Flaw × Nat := (flaw.1, flaw.2 + n)

/-- The scan of a source that stands farther on. -/
def Scan.shift (n : Nat) (s : Scan) : Scan :=
  ⟨s.tokens.map (Token.shift n), s.flaw.map (Flaw.shift n)⟩

theorem Scan.shift_cons (n : Nat) (token : Token) (s : Scan) :
    (s.cons token).shift n = (s.shift n).cons (token.shift n) := by
  obtain ⟨tokens, flaw⟩ := s
  cases token with
  | literal t =>
      cases tokens with
      | nil => rfl
      | cons next rest => cases next <;> rfl
  | _ => rfl

namespace Mode

/-- A unit means the same farther on. -/
theorem read_shift (mode : Mode) (here n : Nat) (u : CodeUnit) :
    mode.read (here + n) u =
      ((mode.read here u).1.map (Token.shift n), (mode.read here u).2.mapError (Flaw.shift n)) := by
  have hnext : here + n + 1 = here + 1 + n := Nat.add_right_comm here n 1
  cases mode with
  | text | textEscape =>
      simp only [read]
      split
      · rfl
      split
      · rfl
      · rfl
  | name depth part =>
      cases part with
      | nil =>
          simp only [read]
          split
          · rfl
          · rfl
      | cons v part =>
          simp only [read, hnext]
          split
          · rfl
          split
          · rfl
          · rfl
  | argument depth =>
      simp only [read, hnext]
      split
      · rfl
      split
      · rfl
      split
      · rfl
      split
      · cases depth <;> rfl
      · rfl
  | argumentEscape depth => rfl

/-- A source is read in the same way farther on. -/
theorem scan_shift (mode : Mode) (here n : Nat) (t : Text) :
    mode.scan (here + n) t = (mode.scan here t).shift n := by
  induction t generalizing mode here with
  | nil =>
      cases mode with
      | name depth part => cases part <;> rfl
      | _ => rfl
  | cons u rest ih =>
      rw [scan_cons, scan_cons, read_shift, Nat.add_right_comm]
      have hbehind : behind ((mode.read here u).2.mapError (Flaw.shift n)) (here + 1 + n) rest =
          (behind (mode.read here u).2 (here + 1) rest).shift n := by
        cases (mode.read here u).2 with
        | ok next => exact ih next (here + 1)
        | error flaw => rfl
      rw [hbehind]
      cases (mode.read here u).1 with
      | none => rfl
      | some token => exact (Scan.shift_cons n token _).symm

/-! ## Open calls -/

/-- The number of calls that are open in a mode. -/
def depth (mode : Mode) : Nat := mode.open?.getD 0

end Mode

/-- The number of open calls behind a token, from that in front of it. -/
def Token.depth (n : Nat) : Token → Nat
  | .call _ _ => n + 1
  | .close _ => n - 1
  | _ => n

/-- The number of open calls behind a list of tokens. -/
def Token.depths (n : Nat) (tokens : List Token) : Nat := tokens.foldl Token.depth n

theorem Token.depths_cons (n : Nat) (token : Token) (s : Scan) :
    depths n (s.cons token).tokens = depths (token.depth n) s.tokens := by
  obtain ⟨tokens, flaw⟩ := s
  cases token with
  | literal t =>
      cases tokens with
      | nil => rfl
      | cons next rest => cases next <;> rfl
  | _ => rfl

namespace Mode

/-- The mode behind a unit counts the calls that its token opens and closes. -/
theorem depth_read {mode next : Mode} {here : Nat} {u : CodeUnit} {token? : Option Token}
    (h : mode.read here u = (token?, .ok next)) :
    next.depth = token?.elim mode.depth (Token.depth mode.depth) := by
  have hread := mode.transition_read here u
  rw [h] at hread
  cases hread <;> rfl

/-- A source without a flaw closes all calls. -/
theorem depths_scan {mode : Mode} {here : Nat} {t : Text} (h : (mode.scan here t).flaw = none) :
    Token.depths mode.depth (mode.scan here t).tokens = 0 := by
  induction t generalizing mode here with
  | nil =>
      cases mode with
      | text | textEscape => rfl
      | name depth part => cases part <;> cases h
      | argument | argumentEscape => cases h
  | cons u rest ih =>
      rw [scan_cons] at h ⊢
      cases hread : mode.read here u with
      | mk token? result =>
      rw [hread] at h
      cases result with
      | error flaw => cases token? <;> cases h
      | ok next =>
          have hdepth := depth_read hread
          cases token? with
          | none =>
              have hrest : Token.depths next.depth (next.scan (here + 1) rest).tokens = 0 := ih h
              rwa [hdepth] at hrest
          | some token =>
              have hrest : Token.depths next.depth (next.scan (here + 1) rest).tokens = 0 := ih h
              rw [hdepth] at hrest
              exact (Token.depths_cons mode.depth token _).trans hrest

end Mode

/-- The state of evaluation with other fragments in front of its own. -/
def Progress.behind (front : List Fragment) (p : Progress) : Progress :=
  { p with fragments := front ++ p.fragments }

namespace Target

variable {target : Target} {manner : Manner} {source source' : Text} {p p' : Progress}

/-- A token leads to the same state farther on in another source, unless it is given up. -/
theorem step_shift (n : Nat) {token : Token}
    (h : target.step manner source p token = .ok p') :
    target.step manner source' p (token.shift n) = .ok p' := by
  cases takes_of_step h with
  | call _ _ callee _ hpermitted => simp only [Token.shift, step, if_neg hpermitted]
  | close _ _ _ _ hrendered =>
      rw [Token.shift, step_close, renderCall_eq_ok hrendered]
      rfl
  | _ => rfl

theorem foldlM_step_shift (n : Nat) {tokens : List Token}
    (h : tokens.foldlM (target.step manner source) p = .ok p') :
    (tokens.map (Token.shift n)).foldlM (target.step manner source') p = .ok p' := by
  induction tokens generalizing p with
  | nil => exact h
  | cons token rest ih =>
      rw [List.foldlM_cons] at h
      obtain ⟨p₁, hstep, hrest⟩ := bind_eq_ok_iff.mp h
      rw [List.map_cons, List.foldlM_cons, step_shift n hstep]
      exact ih hrest

/-- Tokens lead to the same state wherever their source comes from. -/
theorem foldlM_step_of_source {tokens : List Token}
    (h : tokens.foldlM (target.step manner source) p = .ok p') (source' : Text) :
    tokens.foldlM (target.step manner source') p = .ok p' := by
  have hshift : (tokens.map (Token.shift 0)).foldlM (target.step manner source') p = .ok p' :=
    foldlM_step_shift 0 h
  have hzero : Token.shift 0 = id := by
    funext token
    cases token <;> rfl
  rwa [hzero, List.map_id] at hshift

/-- A token moves the number of open calls. -/
theorem length_calls_step {token : Token} (h : target.step manner source p token = .ok p') :
    p'.calls.length = token.depth p.calls.length := by
  cases takes_of_step h with
  | close _ _ outer => cases outer <;> rfl
  | _ => rfl

theorem length_calls_foldlM {tokens : List Token}
    (h : tokens.foldlM (target.step manner source) p = .ok p') :
    p'.calls.length = Token.depths p.calls.length tokens := by
  induction tokens generalizing p with
  | nil =>
      cases h
      rfl
  | cons token rest ih =>
      rw [List.foldlM_cons] at h
      obtain ⟨p₁, hstep, hrest⟩ := bind_eq_ok_iff.mp h
      rw [ih hrest, length_calls_step hstep]
      rfl

/-- A step leaves the fragments alone that are there. -/
theorem step_behind (front : List Fragment) (p : Progress) (token : Token) :
    target.step manner source (p.behind front) token =
      (target.step manner source p token).map (Progress.behind front) := by
  obtain ⟨fragments, calls⟩ := p
  cases token with
  | literal t =>
      show Except.ok (Progress.mk (front ++ fragments ++ [_]) calls) = _
      rw [List.append_assoc]
      rfl
  | call callee stop =>
      simp only [Progress.behind, step, giveUp]
      split
      · rfl
      · rfl
  | unit u | comma => cases calls <;> rfl
  | close stop =>
      cases calls with
      | nil => rfl
      | cons c outer =>
          show target.step manner source ⟨front ++ fragments, c :: outer⟩ (.close stop) = _
          rw [step_close, step_close]
          cases target.renderCall manner source stop c.name c.completeArgument.args with
          | error fault => rfl
          | ok rendered =>
              cases outer with
              | nil =>
                  show Except.ok (Progress.mk (front ++ fragments ++ [_]) []) = _
                  rw [List.append_assoc]
                  rfl
              | cons c' outer => rfl

theorem foldlM_step_behind (front : List Fragment) (p : Progress) (tokens : List Token) :
    tokens.foldlM (target.step manner source) (p.behind front) =
      (tokens.foldlM (target.step manner source) p).map (Progress.behind front) := by
  induction tokens generalizing p with
  | nil => rfl
  | cons token rest ih =>
      rw [List.foldlM_cons, List.foldlM_cons, step_behind]
      cases target.step manner source p token with
      | error fault => rfl
      | ok p₁ => exact ih p₁

end Target

/-! ## Fragments in front of fragments -/

theorem Fragment.concat_append (fragments fragments' : List Fragment) :
    concat (fragments ++ fragments') = concat fragments ++ concat fragments' :=
  List.flatMap_append

theorem Fragment.concat_singleton (fragment : Fragment) : concat [fragment] = fragment.text :=
  List.flatMap_singleton ..

/-- The last of three lists is the other two put together, where literals at the seam become one. -/
inductive Joined {α : Type} (literal : Text → α) : List α → List α → List α → Prop where
  | apart (front back : List α) : Joined literal front back (front ++ back)
  | meet (front : List α) (t : Text) {t' : Text} (back : List α) (ht' : t' ≠ []) :
      Joined literal (front ++ [literal t]) (literal t' :: back)
        (front ++ literal (t ++ t') :: back)

/-- Something in front of all. -/
theorem Joined.cons {α : Type} {literal : Text → α} {front back both : List α}
    (h : Joined literal front back both) (a : α) :
    Joined literal (a :: front) back (a :: both) := by
  cases h with
  | apart => exact .apart (a :: front) back
  | meet front t back ht' => exact .meet (a :: front) t back ht'

/-- Tidy tokens in front of tidy tokens. -/
theorem Token.Tidy.joined {tokens others : List Token} (h : Tidy tokens) (hothers : Tidy others) :
    Joined Token.literal tokens others (tokens.foldr Token.cons others) := by
  induction h with
  | nil => exact .apart [] others
  | @literal t rest ht hnext hrest ih =>
      rw [List.foldr_cons]
      cases hrest with
      -- the seam is behind the literal
      | nil =>
          cases hothers with
          | nil => exact .apart [Token.literal t] []
          | literal ht' _ _ => exact .meet [] t _ ht'
          | other htoken _ =>
              rw [List.foldr_nil, Token.cons_literal_of_head?]
              · exact .apart [Token.literal t] _
              · exact fun t' heq => htoken t' (Option.some.inj heq)
      -- the literal has another token behind it
      | literal => exact absurd rfl (hnext _)
      | other htoken =>
          rw [List.foldr_cons, Token.cons_of_ne_literal htoken] at ih ⊢
          rw [Token.cons_literal_of_head?]
          · exact ih.cons _
          · exact fun t' heq => htoken t' (Option.some.inj heq)
  | other htoken _ ih =>
      rw [List.foldr_cons, Token.cons_of_ne_literal htoken]
      exact ih.cons _

/-- A literal run of text. -/
abbrev Fragment.ofLiteral (t : Text) : Fragment := ⟨.literal, t⟩

namespace Target

variable {target : Target} {manner : Manner} {strict : Bool} {source : Text}

/-- Evaluation runs over tokens that are put together as it runs over each part, and puts the
fragments together. -/
theorem foldlM_step_joined {front back both : List Token} (h : Joined Token.literal front back both)
    {fragments fragments' : List Fragment} {calls : List OpenCall}
    (hfront : front.foldlM (target.step ⟨strict, id⟩ source) {} = .ok ⟨fragments, []⟩)
    (hback : back.foldlM (target.step ⟨strict, id⟩ source) {} = .ok ⟨fragments', calls⟩) :
    ∃ all, both.foldlM (target.step ⟨strict, id⟩ source) {} = .ok ⟨all, calls⟩ ∧
      Joined Fragment.ofLiteral fragments fragments' all := by
  have hstart : ∀ front : List Fragment, (⟨front, []⟩ : Progress) = ({} : Progress).behind front :=
    fun front => by rw [Progress.behind, List.append_nil]
  cases h with
  | apart =>
      refine ⟨fragments ++ fragments', ?_, .apart fragments fragments'⟩
      rw [List.foldlM_append, hfront]
      show back.foldlM (target.step _ source) (⟨fragments, []⟩ : Progress) = _
      rw [hstart, foldlM_step_behind, hback]
      rfl
  | meet init t rest ht' =>
      rw [List.foldlM_append] at hfront
      obtain ⟨⟨before, opened⟩, hinit, hlast⟩ := bind_eq_ok_iff.mp hfront
      cases hlast
      have hrest : rest.foldlM (target.step ⟨strict, id⟩ source) ⟨[.ofLiteral _], []⟩ = _ := hback
      rw [hstart, foldlM_step_behind] at hrest
      cases hrun : rest.foldlM (target.step ⟨strict, id⟩ source) {} with
      | error fault =>
          rw [hrun] at hrest
          cases hrest
      | ok p =>
          rw [hrun] at hrest
          cases hrest
          refine ⟨before ++ .ofLiteral (t ++ _) :: p.fragments, ?_, .meet before t p.fragments ht'⟩
          rw [List.foldlM_append, hinit]
          show rest.foldlM (target.step _ source) (⟨before ++ [.ofLiteral _], []⟩ : Progress) = _
          rw [hstart, foldlM_step_behind, hrun]
          show Except.ok (Progress.mk (before ++ [_] ++ p.fragments) p.calls) = _
          rw [List.append_assoc]
          rfl

/-- A source that evaluates has no flaw, and its tokens are taken one after another. -/
theorem evaluate_eq_ok_iff {fragments : List Fragment} :
    target.evaluate manner source = .ok fragments ↔
      (Scan.ofText source).flaw = none ∧
        ∃ calls, (Scan.ofText source).tokens.foldlM (target.step manner source) {} =
          .ok ⟨fragments, calls⟩ := by
  rw [evaluate, bind_eq_ok_iff]
  constructor
  · intro h
    obtain ⟨p, hrun, hfragments⟩ := h
    split at hfragments
    · cases hfragments
    · rename_i hflaw
      cases hfragments
      exact ⟨hflaw, p.calls, hrun⟩
  · intro h
    obtain ⟨hflaw, calls, hrun⟩ := h
    refine ⟨⟨fragments, calls⟩, hrun, ?_⟩
    rw [hflaw]

/-- Behind a source that evaluates no call is open. -/
theorem foldlM_of_evaluate {fragments : List Fragment}
    (h : target.evaluate manner source = .ok fragments) :
    (Scan.ofText source).flaw = none ∧
      (Scan.ofText source).tokens.foldlM (target.step manner source) {} = .ok ⟨fragments, []⟩ := by
  obtain ⟨hflaw, calls, hrun⟩ := evaluate_eq_ok_iff.mp h
  have hclosed : calls = [] := by
    have hlength := length_calls_foldlM hrun
    exact List.length_eq_zero_iff.mp (hlength.trans (Mode.depths_scan hflaw))
  subst hclosed
  exact ⟨hflaw, hrun⟩

/-- A step adds no empty literal. -/
theorem literal_ne_nil_of_step {token : Token} {p p' : Progress}
    (hp : ∀ fragment ∈ p.fragments, fragment.kind = .literal → fragment.text ≠ [])
    (htoken : ∀ t, token = .literal t → t ≠ [])
    (hstep : target.step ⟨strict, id⟩ source p token = .ok p') :
    ∀ fragment ∈ p'.fragments, fragment.kind = .literal → fragment.text ≠ [] := by
  have happend : ∀ {added : Fragment}, (added.kind = .literal → added.text ≠ []) →
      ∀ fragment ∈ p.fragments ++ [added], fragment.kind = .literal → fragment.text ≠ [] :=
    fun hadded => List.forall_mem_append.mpr ⟨hp, List.forall_mem_singleton.mpr hadded⟩
  cases takes_of_step hstep with
  | literal _ _ t => exact happend fun _ => htoken t rfl
  | close _ _ outer =>
      cases outer with
      | nil => exact happend nofun
      | cons c' outer => exact hp
  | _ => exact hp

/-- No literal is empty that a source evaluates to. -/
theorem literal_ne_nil_of_evaluate {fragments : List Fragment}
    (h : target.evaluate ⟨strict, id⟩ source = .ok fragments) :
    ∀ fragment ∈ fragments, fragment.kind = .literal → fragment.text ≠ [] := by
  have hrun : ∀ {tokens : List Token} {p p' : Progress},
      (∀ t, .literal t ∈ tokens → t ≠ []) →
      (∀ fragment ∈ p.fragments, fragment.kind = .literal → fragment.text ≠ []) →
      tokens.foldlM (target.step ⟨strict, id⟩ source) p = .ok p' →
        ∀ fragment ∈ p'.fragments, fragment.kind = .literal → fragment.text ≠ [] := by
    intro tokens
    induction tokens with
    | nil =>
        intro p p' _ hp hrun
        cases hrun
        exact hp
    | cons token rest ih =>
        intro p p' htokens hp hrun
        rw [List.foldlM_cons] at hrun
        obtain ⟨p₁, hstep, hrest⟩ := bind_eq_ok_iff.mp hrun
        refine ih (fun t ht => htokens t (List.mem_cons_of_mem _ ht)) ?_ hrest
        exact literal_ne_nil_of_step hp (fun t heq => htokens t (heq ▸ List.mem_cons_self ..)) hstep
  exact hrun (fun t ht => (Mode.tidy_scan .text 0 source).literal_ne_nil ht)
    (List.forall_mem_nil _) (foldlM_of_evaluate h).2

/-- Two sources that evaluate do so one behind the other, and the fragments are put together, unless
a backslash meets a dollar sign. -/
theorem evaluate_append {a b : Text} {fragments fragments' : List Fragment}
    (ha : target.evaluate ⟨strict, id⟩ a = .ok fragments)
    (hb : target.evaluate ⟨strict, id⟩ b = .ok fragments')
    (hseam : a.getLast? = some backslash → b.head? ≠ some dollar) :
    ∃ all, target.evaluate ⟨strict, id⟩ (a ++ b) = .ok all ∧
      Joined Fragment.ofLiteral fragments fragments' all := by
  obtain ⟨haflaw, ha⟩ := foldlM_of_evaluate ha
  obtain ⟨hbflaw, calls, hb⟩ := evaluate_eq_ok_iff.mp hb
  have hscan : Scan.ofText (a ++ b) = (Scan.ofText a).append ((Scan.ofText b).shift a.length) := by
    rw [Scan.ofText, Mode.scan_append haflaw hseam, Mode.scan_shift]
    rfl
  have htokens : Token.Tidy ((Scan.ofText b).shift a.length).tokens := by
    rw [Scan.ofText, ← Mode.scan_shift]
    exact Mode.tidy_scan ..
  have hjoined := (Mode.tidy_scan .text 0 a).joined htokens
  obtain ⟨all, hall, hfragments⟩ :=
    foldlM_step_joined hjoined (foldlM_step_of_source ha (a ++ b)) (foldlM_step_shift _ hb)
  refine ⟨all, evaluate_eq_ok_iff.mpr ⟨?_, calls, ?_⟩, hfragments⟩
  · rw [hscan, Scan.append, Scan.shift, hbflaw]
    rfl
  · rw [hscan]
    exact hall

end Target

end Sigil
