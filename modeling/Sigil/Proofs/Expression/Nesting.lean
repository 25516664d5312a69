import Sigil.Proofs.Expression.Concatenation
import Sigil.Proofs.Expression.SingleCall

/-!
# An expression as an argument

Between calls and in an argument a source is read by different rules. They agree on a source whose
literal text has no backslash, comma or closing parenthesis: in an argument it has the same tokens,
but for each literal the units of it (`Mode.scan_inArgument`). Evaluation takes them in the same
way, and adds to the argument what it would add to the fragments (`Target.foldlM_inArgument`), if
text is escaped unit by unit. So a call whose only argument is the source is rendered from the
output of the source (`Target.evaluate_callWith`).
-/

namespace Sigil

open CodeUnit

/-! ## Tokens in an argument -/

/-- The text of a token that stands between calls. -/
def Token.literalText : Token → Text
  | .literal t => t
  | _ => []

/-- The text of a scan that stands between calls. -/
def Scan.literalText (s : Scan) : Text := s.tokens.flatMap Token.literalText

/-- The text of a source that stands between calls, with its escapes undone. -/
def Text.literalText (source : Text) : Text := (Scan.ofText source).literalText

/-- The units mean the same in an argument as between calls, where a dollar sign is escaped in
both. -/
def Text.IsPlain (t : Text) : Prop := ∀ u ∈ t, u ≠ backslash ∧ u ≠ comma ∧ u ≠ rightParen

instance (t : Text) : Decidable t.IsPlain := List.decidableBAll _ t

/-- What stands for a token in an argument. -/
def Token.inArgument : Token → List Token
  | .literal t => t.map .unit
  | token => [token]

theorem Scan.literalText_cons (token : Token) (s : Scan) :
    (s.cons token).literalText = token.literalText ++ s.literalText :=
  flatMap_cons (fun _ _ => rfl) token s

theorem Scan.literalText_shift (n : Nat) (s : Scan) : (s.shift n).literalText = s.literalText := by
  have htoken : ∀ token : Token, (token.shift n).literalText = token.literalText := by
    intro token
    cases token <;> rfl
  simp only [literalText, shift, List.flatMap_map, htoken]

/-- There are no literals in an argument. -/
theorem Token.ne_literal_of_mem_inArgument {token inner : Token} (h : inner ∈ token.inArgument)
    (t : Text) : inner ≠ .literal t := by
  cases token with
  | literal t' =>
      obtain ⟨u, -, rfl⟩ := List.mem_map.mp h
      exact nofun
  | _ =>
      rw [List.mem_singleton.mp h]
      exact nofun

namespace Mode

/-- The mode in an argument of a call that `depth` calls enclose. -/
def inArgument (depth : Nat) : Mode → Mode
  | text => argument depth
  | textEscape => argumentEscape depth
  | name inner part => name (depth + 1 + inner) part
  | argument inner => argument (depth + 1 + inner)
  | argumentEscape inner => argumentEscape (depth + 1 + inner)

/-- A unit of a call does the same where the call is in an argument of another one. -/
theorem Reads.inArgument {mode next : Mode} {u : CodeUnit} {token? : Option (Nat → Token)}
    (h : mode.Reads u token? next) (depth : Nat) :
    (mode.inArgument depth).Reads u token? (next.inArgument depth) := by
  cases h with
  | beginName _ hu => exact .beginName _ hu
  | continueName _ v part hu => exact .continueName _ v part hu
  | openCall _ v part => exact .openCall _ v part
  | beginEscape => exact .beginEscape _
  | beginCall inner => exact .beginCall (depth + 1 + inner)
  | endArgument => exact .endArgument _
  | closeCall inner => cases inner <;> exact .closeCall _
  | unit _ hbackslash hdollar hcomma hparen => exact .unit _ hbackslash hdollar hcomma hparen
  | escaped _ u => exact .escaped _ u

/-- A unit does in an argument what it does between calls, if no unit is passed on that means
something else there. -/
theorem read_inArgument {mode next : Mode} {here : Nat} {u : CodeUnit} {token? : Option Token}
    (h : mode.read here u = (token?, .ok next))
    (hplain : Text.IsPlain (token?.toList.flatMap Token.literalText)) (depth : Nat) :
    ∃ inner?, (mode.inArgument depth).read here u = (inner?, .ok (next.inArgument depth)) ∧
      inner?.toList = token?.toList.flatMap Token.inArgument := by
  cases hopen : mode.open? with
  | some inner =>
      obtain ⟨token?, hreads, rfl⟩ := reads_of_read hopen h
      refine ⟨_, (hreads.inArgument depth).read_eq here, ?_⟩
      -- in a call there are no literals
      cases hreads <;> rfl
  | none =>
      cases mode with
      | text =>
          simp only [read] at h
          split at h
          · rename_i hdollar
            cases h
            subst hdollar
            exact ⟨none, rfl, rfl⟩
          split at h
          · rename_i hbackslash
            cases h
            subst hbackslash
            exact ⟨none, rfl, rfl⟩
          · rename_i hdollar hbackslash
            cases h
            obtain ⟨-, hcomma, hparen⟩ := hplain u (List.mem_singleton_self u)
            exact ⟨_, (Reads.unit depth hbackslash hdollar hcomma hparen).read_eq here, rfl⟩
      | textEscape =>
          -- behind a backslash only a dollar sign leaves no backslash in the text
          simp only [read] at h
          split at h
          · rename_i hdollar
            cases h
            subst hdollar
            exact ⟨some (.unit dollar), rfl, rfl⟩
          split at h
          · cases h
            exact absurd rfl (hplain backslash (List.mem_singleton_self _)).1
          · cases h
            exact absurd rfl (hplain backslash (List.mem_cons_self ..)).1
      | _ => cases hopen

/-- A source without a flaw is read in an argument as it is between calls, with its literals unit by
unit, and what stands behind it is read in the argument. -/
theorem scan_inArgument (mode : Mode) (here : Nat) {t : Text} (depth : Nat) (rest : Text)
    (hflaw : (mode.scan here t).flaw = none) (hplain : (mode.scan here t).literalText.IsPlain) :
    (mode.inArgument depth).scan here (t ++ rest) =
      ⟨(mode.scan here t).tokens.flatMap Token.inArgument ++
          ((argument depth).scan (here + t.length) rest).tokens,
        ((argument depth).scan (here + t.length) rest).flaw⟩ := by
  induction t generalizing mode here with
  | nil =>
      cases mode with
      | text => rfl
      | textEscape => exact absurd rfl (hplain backslash (List.mem_singleton_self _)).1
      | name inner part => cases part <;> cases hflaw
      | argument | argumentEscape => cases hflaw
  | cons u t ih =>
      cases hread : mode.read here u with
      | mk token? result =>
      rw [scan_cons, hread] at hflaw hplain ⊢
      cases result with
      | error flaw => cases token? <;> cases hflaw
      | ok next =>
          have hnext : (next.scan (here + 1) t).flaw = none := by
            cases token? <;> exact hflaw
          have htext : Text.IsPlain (token?.toList.flatMap Token.literalText ++
              (next.scan (here + 1) t).literalText) := by
            cases token? with
            | none => exact hplain
            | some token =>
                rw [Option.toList_some, List.flatMap_singleton, ← Scan.literalText_cons]
                exact hplain
          obtain ⟨hunit, hbehind⟩ := List.forall_mem_append.mp htext
          obtain ⟨inner?, hinner, htokens⟩ := read_inArgument hread hunit depth
          have hrest := ih next (here + 1) hnext hbehind
          rw [List.cons_append, scan_cons, hinner, List.length_cons, Nat.add_comm t.length,
            ← Nat.add_assoc]
          cases token? with
          | none =>
              cases inner? with
              | none => exact hrest
              | some inner => cases htokens
          | some token =>
              rw [Option.toList_some, List.flatMap_singleton] at htokens
              rw [Scan.flatMap_cons (fun _ _ => List.map_append), List.append_assoc, ← htokens]
              cases inner? with
              | none => exact hrest
              | some inner =>
                  have hmem : inner ∈ token.inArgument := by
                    rw [← htokens]
                    exact List.mem_singleton_self inner
                  show ((next.inArgument depth).scan (here + 1) (t ++ rest)).cons inner = _
                  rw [hrest, Scan.cons,
                    Token.cons_of_ne_literal (Token.ne_literal_of_mem_inArgument hmem)]
                  rfl

end Mode

/-- A source in the only argument of a call has the tokens that it has by itself, farther on. -/
theorem Mode.scan_argument_source {source : Text} (here : Nat)
    (hflaw : (Scan.ofText source).flaw = none) (hplain : source.literalText.IsPlain) :
    (argument 0).scan here (source ++ [rightParen]) =
      ⟨((Scan.ofText source).tokens.map (Token.shift here)).flatMap Token.inArgument ++
        [.close (here + source.length + 1)], none⟩ := by
  have hshift : text.scan here source = (Scan.ofText source).shift here := by
    rw [Scan.ofText, ← scan_shift, Nat.zero_add]
  have hflaw' : (text.scan here source).flaw = none := by
    rw [hshift, Scan.shift, hflaw]
    rfl
  have hplain' : (text.scan here source).literalText.IsPlain := by
    rw [hshift, Scan.literalText_shift]
    exact hplain
  have hscan := scan_inArgument text here 0 [rightParen] hflaw' hplain'
  rw [hshift] at hscan
  exact hscan

/-! ## Tokens in their places -/

/-- The token can stand where so many calls are open: text between calls, and the parts of an
argument in a call. -/
def Token.Fits (depth : Nat) : Token → Prop
  | .literal _ => depth = 0
  | .call _ _ => True
  | .unit _ | .comma | .close _ => 0 < depth

/-- Every token can stand where it does. -/
def Token.AllFit : Nat → List Token → Prop
  | _, [] => True
  | depth, token :: rest => token.Fits depth ∧ AllFit (token.depth depth) rest

theorem Token.AllFit.cons {depth : Nat} {token : Token} {s : Scan} (htoken : token.Fits depth)
    (hs : AllFit (token.depth depth) s.tokens) : AllFit depth (s.cons token).tokens := by
  obtain ⟨tokens, flaw⟩ := s
  cases token with
  | literal t =>
      cases tokens with
      | nil => exact ⟨htoken, hs⟩
      | cons next rest =>
          cases next with
          | literal t' => exact ⟨htoken, hs.2⟩
          | _ => exact ⟨htoken, hs⟩
  | _ => exact ⟨htoken, hs⟩

namespace Mode

/-- A unit completes a token that can stand where the unit does. -/
theorem fits_of_read {mode : Mode} {here : Nat} {u : CodeUnit} {token : Token}
    (h : (mode.read here u).1 = some token) : token.Fits mode.depth := by
  have hread := mode.transition_read here u
  rw [h] at hread
  generalize (mode.read here u).2 = result at hread
  cases hread with
  | literal | escapedDollar | escapedBackslash | notEscaped => rfl
  | openCall | notOpen => trivial
  | endArgument | closeOutermost | closeInner | unit | escaped => exact Nat.succ_pos _

/-- The tokens of a source can stand where they do. -/
theorem allFit_scan (mode : Mode) (here : Nat) (t : Text) :
    Token.AllFit mode.depth (mode.scan here t).tokens := by
  induction t generalizing mode here with
  | nil =>
      cases mode with
      | textEscape => exact ⟨rfl, trivial⟩
      | name depth part =>
          cases part with
          | nil => trivial
          | cons v part => exact ⟨trivial, trivial⟩
      | _ => trivial
  | cons u rest ih =>
      rw [scan_cons]
      cases hread : mode.read here u with
      | mk token? result =>
      have hbehind : Token.AllFit (token?.elim mode.depth (Token.depth mode.depth))
          (behind result (here + 1) rest).tokens := by
        cases result with
        | error flaw => trivial
        | ok next =>
            rw [← depth_read hread]
            exact ih next (here + 1)
      cases token? with
      | none => exact hbehind
      | some token =>
          have htoken : (mode.read here u).1 = some token := by rw [hread]
          exact Token.AllFit.cons (fits_of_read htoken) hbehind

/-- So can those of a source that stands farther on. -/
theorem allFit_shift (source : Text) (here : Nat) :
    Token.AllFit 0 ((Scan.ofText source).tokens.map (Token.shift here)) := by
  have hfit := allFit_scan text (0 + here) source
  rwa [scan_shift] at hfit

end Mode

/-! ## Evaluation in an argument -/

/-- Text is escaped unit by unit. -/
def Manner.EscapesUnits (manner : Manner) : Prop :=
  ∀ t, manner.escape t = t.flatMap fun u => manner.escape [u]

/-- The state inside of a call, where the fragments are a part of the argument being read. -/
def Progress.inArgument (p : Progress) (front : List Fragment) (c : OpenCall)
    (outer : List OpenCall) (key : Text) : Progress :=
  ⟨front, p.calls ++ c.append key (Fragment.concat p.fragments) :: outer⟩

/-- A rendered call that is a fragment becomes a part of the argument. -/
theorem Progress.exists_receive_inArgument (p : Progress) (rendered : Text)
    (front : List Fragment) (c : OpenCall) (outer : List OpenCall) {key : Text}
    (hkey : key = [] → Fragment.concat p.fragments = []) :
    ∃ key' : Text, (key' = [] → Fragment.concat (p.receive rendered).fragments = []) ∧
      (p.inArgument front c outer key).receive rendered =
        (p.receive rendered).inArgument front c outer key' := by
  obtain ⟨fragments, calls⟩ := p
  cases calls with
  | nil =>
      refine ⟨key ++ rendered, ?_, ?_⟩
      · intro hnil
        obtain ⟨hkeynil, hrenderednil⟩ := List.append_eq_nil_iff.mp hnil
        rw [receive, Fragment.concat_append, hkey hkeynil, Fragment.concat_singleton, hrenderednil]
        rfl
      · show Progress.mk front ((c.append key _).append rendered rendered :: outer) =
          Progress.mk front (c.append _ (Fragment.concat (fragments ++ _)) :: outer)
        rw [OpenCall.append_append, Fragment.concat_append, Fragment.concat_singleton]
  | cons inner rest => exact ⟨key, hkey, rfl⟩

/-- The source of a call whose only argument is the source. -/
def Text.callWith (callee source : Text) : Text :=
  dollar :: (callee ++ leftParen :: (source ++ [rightParen]))

namespace Target

variable {target : Target} {manner : Manner} {source : Text} {p p' : Progress}

/-- The units of a text are added to the argument being read. -/
theorem foldlM_units (t : Text) (front : List Fragment) (c : OpenCall) (outer : List OpenCall) :
    (t.map Token.unit).foldlM (target.step manner source) ⟨front, c :: outer⟩ =
      .ok ⟨front, c.append t (t.flatMap fun u => manner.escape [u]) :: outer⟩ := by
  induction t generalizing c with
  | nil =>
      rw [List.flatMap_nil, OpenCall.append_nil]
      rfl
  | cons u t ih =>
      rw [List.map_cons, List.foldlM_cons]
      show (t.map Token.unit).foldlM (target.step manner source)
        ⟨front, c.append [u] (manner.escape [u]) :: outer⟩ = _
      rw [ih, OpenCall.append_append]
      rfl

/-- In an argument a token adds to the argument what it would add to the fragments. The key of the
argument is empty only if the fragments are. -/
theorem step_inArgument (hescape : manner.EscapesUnits) {token : Token}
    (hfits : token.Fits p.calls.length) (hstep : target.step manner source p token = .ok p')
    (front : List Fragment) (c : OpenCall) (outer : List OpenCall) {key : Text}
    (hkey : key = [] → Fragment.concat p.fragments = []) :
    ∃ key' : Text, (key' = [] → Fragment.concat p'.fragments = []) ∧
      token.inArgument.foldlM (target.step manner source) (p.inArgument front c outer key) =
        .ok (p'.inArgument front c outer key') := by
  have hone : ∀ {next}, target.step manner source (p.inArgument front c outer key) token =
      .ok next → [token].foldlM (target.step manner source) (p.inArgument front c outer key) =
        .ok next := by
    intro next hnext
    rw [List.foldlM_cons, hnext]
    rfl
  cases takes_of_step hstep with
  | literal fragments calls t =>
      obtain rfl : calls = [] := List.length_eq_zero_iff.mp hfits
      refine ⟨key ++ t, ?_, ?_⟩
      · intro hnil
        obtain ⟨hkeynil, ht⟩ := List.append_eq_nil_iff.mp hnil
        rw [Fragment.concat_append, hkey hkeynil, Fragment.concat_singleton, ht, hescape]
        rfl
      · show (t.map Token.unit).foldlM _ (Progress.mk front (c.append key _ :: outer)) =
          Except.ok (Progress.mk front (c.append _ (Fragment.concat (fragments ++ _)) :: outer))
        rw [foldlM_units, OpenCall.append_append, ← hescape, Fragment.concat_append,
          Fragment.concat_singleton]
  | call _ _ callee stop hpermitted =>
      refine ⟨key, hkey, hone ?_⟩
      simp only [step, if_neg hpermitted]
      rfl
  | unit | comma => exact ⟨key, hkey, hone rfl⟩
  | close fragments inner rest stop hrendered =>
      obtain ⟨key', hkey', hreceive⟩ :=
        Progress.exists_receive_inArgument ⟨fragments, rest⟩ _ front c outer hkey
      refine ⟨key', hkey', hone ?_⟩
      show target.step manner source ⟨front, inner :: (rest ++ _)⟩ (.close stop) = _
      rw [step_close, hrendered, ← hreceive]
      rfl
  | strayUnit | strayComma | strayClose => cases hfits

/-- In an argument the tokens of a source add to the argument what they would add to the
fragments. -/
theorem foldlM_inArgument (hescape : manner.EscapesUnits) {tokens : List Token}
    (hfit : Token.AllFit p.calls.length tokens)
    (hrun : tokens.foldlM (target.step manner source) p = .ok p') (front : List Fragment)
    (c : OpenCall) (outer : List OpenCall) (key : Text)
    (hkey : key = [] → Fragment.concat p.fragments = []) :
    ∃ key' : Text, (key' = [] → Fragment.concat p'.fragments = []) ∧
      (tokens.flatMap Token.inArgument).foldlM (target.step manner source)
          (p.inArgument front c outer key) =
        .ok (p'.inArgument front c outer key') := by
  induction tokens generalizing p key with
  | nil =>
      cases hrun
      exact ⟨key, hkey, rfl⟩
  | cons token rest ih =>
      obtain ⟨htoken, hrest⟩ := hfit
      rw [List.foldlM_cons] at hrun
      obtain ⟨p₁, hstep, hrun⟩ := bind_eq_ok_iff.mp hrun
      rw [← length_calls_step hstep] at hrest
      obtain ⟨key₁, hkey₁, hfirst⟩ := step_inArgument hescape htoken hstep front c outer hkey
      obtain ⟨key', hkey', hothers⟩ := ih hrest hrun key₁ hkey₁
      refine ⟨key', hkey', ?_⟩
      rw [List.flatMap_cons, List.foldlM_append, hfirst]
      exact hothers

/-- A call whose only argument is a source renders to what the group makes of the output of the
source. -/
theorem evaluate_callWith {callee rendered : Text} {fragments : List Fragment}
    (hescape : manner.EscapesUnits) (hplain : source.literalText.IsPlain)
    (heval : target.evaluate manner source = .ok fragments)
    (hout : Fragment.concat fragments ≠ []) (hcallee : callee.isName = true)
    (hknown : target.known callee = true)
    (hinvoke : ∀ key, target.invoke callee [key] [Fragment.concat fragments] = .ok rendered) :
    target.evaluate manner (Text.callWith callee source) = .ok [⟨.call, rendered⟩] := by
  obtain ⟨hflaw, hrun⟩ := foldlM_of_evaluate heval
  let here := 1 + callee.length + 1
  let opened : OpenCall := { name := callee }
  have hopen : Scan.ofText (Text.callWith callee source) =
      (Mode.name 0 []).scan 1 (callee ++ leftParen :: (source ++ [rightParen])) := rfl
  obtain ⟨key, hkey, hargument⟩ : ∃ key : Text, (key = [] → Fragment.concat fragments = []) ∧
      (((Scan.ofText source).tokens.map (Token.shift here)).flatMap Token.inArgument).foldlM
          (target.step manner (Text.callWith callee source)) ⟨[], [opened]⟩ =
        .ok ⟨[], [opened.append key (Fragment.concat fragments)]⟩ :=
    foldlM_inArgument (p := {}) hescape (Mode.allFit_shift source here)
      (foldlM_step_shift here hrun) [] opened [] [] fun _ => rfl
  have hkeyne : key ≠ [] := fun hnil => hout (hkey hnil)
  have hargs : (opened.append key (Fragment.concat fragments)).completeArgument.args =
      [⟨key, Fragment.concat fragments⟩] := by
    simp [opened, OpenCall.append, OpenCall.completeArgument, hkeyne]
  have hrender : ∀ stop, target.renderCall manner (Text.callWith callee source) stop callee
      [⟨key, Fragment.concat fragments⟩] = .ok rendered := by
    intro stop
    simp [renderCall, hknown, hinvoke]
  have htokens : ∀ stop, (((Scan.ofText source).tokens.map (Token.shift here)).flatMap
      Token.inArgument ++ [Token.close stop]).foldlM
        (target.step manner (Text.callWith callee source)) ⟨[], [opened]⟩ =
      .ok ⟨[⟨.call, rendered⟩], []⟩ := by
    intro stop
    rw [List.foldlM_append, hargument]
    show [Token.close stop].foldlM (target.step manner _) (Progress.mk [] [opened.append key _]) = _
    rw [List.foldlM_cons, step_close, hargs]
    exact bind_eq_ok_iff.mpr ⟨_, bind_eq_ok_iff.mpr ⟨rendered, hrender stop, rfl⟩, rfl⟩
  rw [evaluate_eq_run, hopen, run_open hcallee fun _ => hknown,
    Mode.scan_argument_source here hflaw hplain, run, htokens]
  rfl

end Target

end Sigil
