import Sigil.Expression.Tree

/-!
# Reading a source piece by piece

What the automaton makes of a name, of a part of an argument, and of a run of literal text, each
with any text behind it. All equations say that a piece yields one token and leaves the scan of
what follows.
-/

namespace Sigil

open CodeUnit

namespace Scan

/-- Literals in front of one another become one. -/
theorem cons_literal_literal (s : Scan) (t t' : Text) :
    (s.cons (.literal t')).cons (.literal t) = s.cons (.literal (t ++ t')) := by
  obtain ⟨tokens, flaw⟩ := s
  cases tokens with
  | nil => rfl
  | cons token rest =>
      cases token with
      | literal t'' => simp [cons, Token.cons]
      | _ => rfl

/-- What stands for the tokens of a scan does not show where literals were joined, if it does not
for two literals. -/
theorem flatMap_cons {α : Type} {f : Token → List α}
    (hf : ∀ t t', f (.literal (t ++ t')) = f (.literal t) ++ f (.literal t')) (token : Token)
    (s : Scan) : (s.cons token).tokens.flatMap f = f token ++ s.tokens.flatMap f := by
  obtain ⟨tokens, flaw⟩ := s
  cases token with
  | literal t =>
      cases tokens with
      | nil => rfl
      | cons next rest =>
          cases next with
          | literal t' =>
              show f (.literal (t ++ t')) ++ rest.flatMap f =
                f (.literal t) ++ (f _ ++ rest.flatMap f)
              rw [hf, List.append_assoc]
          | _ => rfl
  | _ => rfl

end Scan

namespace Mode

/-! ## One unit -/

/-- What stands behind a unit: what the next mode makes of the rest, or the flaw alone. -/
def behind (result : Except (Flaw × Nat) Mode) (here : Nat) (rest : Text) : Scan :=
  match result with
  | .ok next => next.scan here rest
  | .error flaw => ⟨[], some flaw⟩

/-- Reading a unit puts the token that it completes in front of what stands behind it. -/
theorem scan_cons (mode : Mode) (here : Nat) (u : CodeUnit) (rest : Text) :
    mode.scan here (u :: rest) =
      match (mode.read here u).1 with
      | none => behind (mode.read here u).2 (here + 1) rest
      | some token => (behind (mode.read here u).2 (here + 1) rest).cons token :=
  rfl

/-- What a unit does in each mode: the token that it completes, and the next mode or the flaw that
it brings to light. -/
inductive Transition (here : Nat) (u : CodeUnit) :
    Mode → Option Token → Except (Flaw × Nat) Mode → Prop where
  | textDollar (hu : u = dollar) : Transition here u text none (.ok (name 0 []))
  | textBackslash (hu : u = backslash) : Transition here u text none (.ok textEscape)
  | literal : Transition here u text (some (.literal [u])) (.ok text)
  | escapedDollar (hu : u = dollar) :
      Transition here u textEscape (some (.literal [dollar])) (.ok text)
  | escapedBackslash (hu : u = backslash) :
      Transition here u textEscape (some (.literal [backslash])) (.ok textEscape)
  | notEscaped : Transition here u textEscape (some (.literal [backslash, u])) (.ok text)
  | beginName (depth : Nat) : Transition here u (name depth []) none (.ok (name depth [u]))
  | noName (depth : Nat) :
      Transition here u (name depth []) none (.error (.missingName, here))
  | continueName (depth : Nat) (v : CodeUnit) (part : Text) :
      Transition here u (name depth (v :: part)) none (.ok (name depth (v :: part ++ [u])))
  | openCall (depth : Nat) (v : CodeUnit) (part : Text) :
      Transition here u (name depth (v :: part)) (some (.call (v :: part) here))
        (.ok (argument depth))
  | notOpen (depth : Nat) (v : CodeUnit) (part : Text) :
      Transition here u (name depth (v :: part)) (some (.call (v :: part) here))
        (.error (.missingOpen, here + 1))
  | beginEscape (depth : Nat) :
      Transition here u (argument depth) none (.ok (argumentEscape depth))
  | beginCall (depth : Nat) :
      Transition here u (argument depth) none (.ok (name (depth + 1) []))
  | endArgument (depth : Nat) :
      Transition here u (argument depth) (some .comma) (.ok (argument depth))
  | closeOutermost : Transition here u (argument 0) (some (.close (here + 1))) (.ok text)
  | closeInner (depth : Nat) :
      Transition here u (argument (depth + 1)) (some (.close (here + 1))) (.ok (argument depth))
  | unit (depth : Nat) :
      Transition here u (argument depth) (some (.unit u)) (.ok (argument depth))
  | escaped (depth : Nat) :
      Transition here u (argumentEscape depth) (some (.unit u)) (.ok (argument depth))

/-- A unit is read in one of these ways. -/
theorem transition_read (mode : Mode) (here : Nat) (u : CodeUnit) :
    Transition here u mode (mode.read here u).1 (mode.read here u).2 := by
  cases mode with
  | text =>
      simp only [read]
      split
      · exact .textDollar (by assumption)
      split
      · exact .textBackslash (by assumption)
      · exact .literal
  | textEscape =>
      simp only [read]
      split
      · exact .escapedDollar (by assumption)
      split
      · exact .escapedBackslash (by assumption)
      · exact .notEscaped
  | name depth part =>
      cases part with
      | nil =>
          simp only [read]
          split
          · exact .beginName depth
          · exact .noName depth
      | cons v part =>
          simp only [read]
          split
          · exact .continueName depth v part
          split
          · exact .openCall depth v part
          · exact .notOpen depth v part
  | argument depth =>
      simp only [read]
      split
      · exact .beginEscape depth
      split
      · exact .beginCall depth
      split
      · exact .endArgument depth
      split
      · cases depth with
        | zero => exact .closeOutermost
        | succ depth => exact .closeInner depth
      · exact .unit depth
  | argumentEscape depth => exact .escaped depth

/-! ## Calls -/

/-- The rest of a name is read up to its parenthesis. -/
theorem scan_name_part (depth here : Nat) (v : CodeUnit) (part more rest : Text)
    (hmore : more.all continuesName = true) :
    (name depth (v :: part)).scan here (more ++ leftParen :: rest) =
      ((argument depth).scan (here + more.length + 1) rest).cons
        (.call (v :: part ++ more) (here + more.length)) := by
  induction more generalizing here part with
  | nil => simp [scan, read, show leftParen.continuesName = false from rfl]
  | cons u more ih =>
      simp only [List.all_cons, Bool.and_eq_true] at hmore
      rw [List.cons_append, scan]
      simp only [read, if_pos hmore.1]
      rw [List.cons_append, ih (here + 1) (part ++ [u]) hmore.2]
      simp only [List.length_cons, List.append_assoc, List.cons_append, List.nil_append]
      rw [show here + 1 + more.length = here + (more.length + 1) by omega]

/-- A name is read up to its parenthesis. -/
theorem scan_name (depth here : Nat) {callee : Text} (rest : Text)
    (hcallee : callee.isName = true) :
    (name depth []).scan here (callee ++ leftParen :: rest) =
      ((argument depth).scan (here + callee.length + 1) rest).cons
        (.call callee (here + callee.length)) := by
  cases callee with
  | nil => simp [Text.isName] at hcallee
  | cons u more =>
      simp only [Text.isName, Bool.and_eq_true] at hcallee
      rw [List.cons_append, scan]
      simp only [read, if_pos hcallee.1]
      rw [scan_name_part depth (here + 1) u [] more rest hcallee.2]
      simp only [List.length_cons, List.cons_append, List.nil_append]
      rw [show here + 1 + more.length = here + (more.length + 1) by omega]

/-- The spelling of a call between calls is read from the name on. -/
theorem scan_text_call (here : Nat) (callee : Text) (args : List (List Node)) (rest : Text) :
    text.scan here ((Piece.call callee args).spell ++ rest) =
      (name 0 []).scan (here + 1)
        (callee ++ leftParen :: (Node.spellArguments args ++ rightParen :: rest)) := by
  simp only [Piece.spell, Node.spell, List.cons_append, List.append_assoc]
  rfl

/-! ## Parts of an argument -/

/-- A dollar sign in an argument begins a call in it. -/
theorem scan_argument_dollar (depth here : Nat) (rest : Text) :
    (argument depth).scan here (dollar :: rest) = (name (depth + 1) []).scan (here + 1) rest :=
  rfl

/-- A comma ends an argument. -/
theorem scan_argument_comma (depth here : Nat) (rest : Text) :
    (argument depth).scan here (comma :: rest) =
      ((argument depth).scan (here + 1) rest).cons .comma :=
  rfl

/-- A closing parenthesis ends a call. -/
theorem scan_argument_close (depth here : Nat) (rest : Text) :
    (argument depth).scan here (rightParen :: rest) =
      ((afterClose depth).scan (here + 1) rest).cons (.close (here + 1)) :=
  rfl

/-- A unit that is spelled in an argument is read as itself. -/
theorem scan_argument_unit (depth here : Nat) (u : CodeUnit) (rest : Text) :
    (argument depth).scan here ((Node.unit u).spell ++ rest) =
      ((argument depth).scan (here + (Node.unit u).spell.length) rest).cons (.unit u) := by
  unfold Node.spell
  split
  · rfl
  · rename_i hspecial
    simp only [isSpecial, Bool.or_eq_true, beq_iff_eq, not_or] at hspecial
    obtain ⟨⟨⟨hbackslash, hdollar⟩, hcomma⟩, hparen⟩ := hspecial
    simp [scan, read, hbackslash, hdollar, hcomma, hparen]

/-! ## Literal text -/

/-- A backslash that escapes nothing stands for itself. -/
theorem scan_textEscape (here : Nat) {rest : Text} (h : rest.head? ≠ some dollar) :
    textEscape.scan here rest = (text.scan here rest).cons (.literal [backslash]) := by
  cases rest with
  | nil => rfl
  | cons u rest =>
      have hdollar : u ≠ dollar := by simpa using h
      by_cases hbackslash : u = backslash
      · subst hbackslash
        rfl
      · simp only [scan, read, if_neg hdollar, if_neg hbackslash]
        exact (Scan.cons_literal_literal _ [backslash] [u]).symm

/-- The source of a unit of literal text is read as the unit. -/
theorem scan_text_unit (here : Nat) {u : CodeUnit} (rest : Text)
    (h : u = backslash → rest.head? ≠ some dollar) :
    text.scan here ((Piece.literal [u]).spell ++ rest) =
      (text.scan (here + (Piece.literal [u]).spell.length) rest).cons (.literal [u]) := by
  by_cases hdollar : u = dollar
  · subst hdollar
    rfl
  have hspell : (Piece.literal [u]).spell = [u] := by simp [Piece.spell, hdollar]
  rw [hspell]
  by_cases hbackslash : u = backslash
  · subst hbackslash
    exact scan_textEscape (here + 1) (h rfl)
  · simp [scan, read, hdollar, hbackslash]

/-- The source of literal text is read as one literal. A backslash at its end would escape a dollar
sign behind it. -/
theorem scan_text_literal (here : Nat) {t rest : Text} (hne : t ≠ [])
    (h : t.getLast? = some backslash → rest.head? ≠ some dollar) :
    text.scan here ((Piece.literal t).spell ++ rest) =
      (text.scan (here + (Piece.literal t).spell.length) rest).cons (.literal t) := by
  induction t generalizing here with
  | nil => exact absurd rfl hne
  | cons u t ih =>
      have hspell : (Piece.literal (u :: t)).spell =
          (Piece.literal [u]).spell ++ (Piece.literal t).spell := by
        simp [Piece.spell]
      rw [hspell, List.append_assoc]
      -- only the last unit can be a backslash that meets a dollar sign
      cases t with
      | nil =>
          rw [scan_text_unit here ((Piece.literal []).spell ++ rest)]
          · simp [Piece.spell]
          · intro hu
            exact h (by rw [hu]; rfl)
      | cons v t =>
          have hhead : ((Piece.literal (v :: t)).spell ++ rest).head? ≠ some dollar := by
            by_cases hv : v = dollar
            · subst hv
              exact fun heq => absurd (Option.some.inj heq) (by decide)
            · simp [Piece.spell, hv]
          rw [scan_text_unit here _ (fun _ => hhead), ih _ (by simp) (by simpa using h),
            Scan.cons_literal_literal, List.length_append, Nat.add_assoc]
          rfl

end Mode

end Sigil
