import Sigil.Proofs.Expression.Preservation
import Sigil.Proofs.Text.WellFormed

/-!
# No character is split

Reading goes by units, and a backslash takes a single unit along, but neither tears a pair of halves
apart: the texts of the tokens of a whole source are whole, and two halves of a pair are neighbours
in an argument (`Mode.areWhole_scan`). So evaluation works on whole texts alone: every fragment is
whole if every call renders whole arguments to whole text (`Target.KeepsWhole.evaluate`).
-/

namespace Sigil

open CodeUnit
open Text (IsWhole)

/-! ## Tokens -/

namespace CodeUnit

variable {u : CodeUnit}

/-- A half is no ASCII character. -/
theorem ne_of_isHalf (h : u.isHalf = true) {c : CodeUnit} (hc : c.isAscii = true) : u ≠ c := by
  intro heq
  rw [heq, isHalf_eq_false_of_isAscii hc] at h
  cases h

theorem isAscii_of_continuesName (h : u.continuesName = true) : u.isAscii = true := by
  rw [isAscii_iff]
  simp only [continuesName, beginsName, isDigit, Bool.or_eq_true, Bool.and_eq_true,
    decide_eq_true_eq, beq_iff_eq, ← UInt16.toNat_inj, UInt16.le_iff_toNat_le,
    UInt16.reduceToNat] at h
  omega

/-- A half is no part of a name. -/
theorem continuesName_of_isHalf (h : u.isHalf = true) : u.continuesName = false := by
  rw [Bool.eq_false_iff]
  exact fun hname => ne_of_isHalf h (isAscii_of_continuesName hname) rfl

theorem beginsName_of_isHalf (h : u.isHalf = true) : u.beginsName = false := by
  have hname := continuesName_of_isHalf h
  rw [continuesName, Bool.or_eq_false_iff] at hname
  exact hname.1

end CodeUnit

/-- The texts of the tokens are whole. The halves of a pair are neighbours in an argument. -/
inductive Token.AreWhole : List Token → Prop where
  | nil : AreWhole []
  | literal {t : Text} {rest : List Token} (ht : t.IsWhole) (hrest : AreWhole rest) :
      AreWhole (.literal t :: rest)
  | unit {u : CodeUnit} {rest : List Token} (hu : u.isHalf = false) (hrest : AreWhole rest) :
      AreWhole (.unit u :: rest)
  | pair {u v : CodeUnit} {rest : List Token} (hu : u.isLeading = true) (hv : v.isTrailing = true)
      (hrest : AreWhole rest) : AreWhole (.unit u :: .unit v :: rest)
  | call (callee : Text) (stop : Nat) {rest : List Token} (hrest : AreWhole rest) :
      AreWhole (.call callee stop :: rest)
  | comma {rest : List Token} (hrest : AreWhole rest) : AreWhole (.comma :: rest)
  | close (stop : Nat) {rest : List Token} (hrest : AreWhole rest) : AreWhole (.close stop :: rest)

/-- The token is whole by itself: its text is whole, and it is no half of a pair. -/
def Token.IsWhole : Token → Prop
  | .literal t => t.IsWhole
  | .unit u => u.isHalf = false
  | _ => True

/-- What holds of no tokens, and goes on to hold with one more token that is whole by itself and
with the two halves of a pair, holds of all whole tokens. -/
theorem Token.AreWhole.induction {P : List Token → Prop} (nil : P [])
    (cons : ∀ token rest, token.IsWhole → P rest → P (token :: rest))
    (pair : ∀ u v rest, u.isLeading = true → v.isTrailing = true → P rest →
      P (.unit u :: .unit v :: rest))
    {tokens : List Token} (h : AreWhole tokens) : P tokens := by
  induction h with
  | nil => exact nil
  | literal ht _ ih => exact cons _ _ ht ih
  | unit hu _ ih => exact cons _ _ hu ih
  | pair hu hv _ ih => exact pair _ _ _ hu hv ih
  | call callee stop _ ih => exact cons _ _ trivial ih
  | comma _ ih => exact cons _ _ trivial ih
  | close stop _ ih => exact cons _ _ trivial ih

/-- A whole literal in front of whole tokens. -/
theorem Token.AreWhole.cons_literal {t : Text} (ht : t.IsWhole) {s : Scan}
    (h : AreWhole s.tokens) : AreWhole (s.cons (.literal t)).tokens := by
  obtain ⟨tokens, flaw⟩ := s
  cases h with
  | literal ht' hrest => exact .literal (ht.append ht') hrest
  | nil => exact .literal ht .nil
  | unit hu hrest => exact .literal ht (.unit hu hrest)
  | pair hu hv hrest => exact .literal ht (.pair hu hv hrest)
  | call callee stop hrest => exact .literal ht (.call callee stop hrest)
  | comma hrest => exact .literal ht (.comma hrest)
  | close stop hrest => exact .literal ht (.close stop hrest)

namespace Mode

open Token (AreWhole)

/-- The token that a unit completes is whole unless the unit is a half. -/
theorem areWhole_cons_read {u : CodeUnit} (hu : u.isHalf = false) {mode : Mode} {here : Nat}
    {token : Token} (htoken : (mode.read here u).1 = some token) {s : Scan}
    (h : AreWhole s.tokens) : AreWhole (s.cons token).tokens := by
  have hunit : IsWhole [u] := .unit hu .nil
  have hread := mode.transition_read here u
  rw [htoken] at hread
  generalize (mode.read here u).2 = result at hread
  cases hread with
  | literal => exact .cons_literal hunit h
  | escapedDollar | escapedBackslash => exact .cons_literal (.unit (by decide) .nil) h
  | notEscaped => exact .cons_literal (.unit (by decide) hunit) h
  | openCall | notOpen => exact .call _ _ h
  | endArgument => exact .comma h
  | closeOutermost | closeInner => exact .close _ h
  | unit | escaped => exact .unit hu h

/-- A unit that is no half keeps the tokens behind it whole. -/
theorem areWhole_scan_unit {u : CodeUnit} (hu : u.isHalf = false) {rest : Text}
    (hrest : ∀ (mode : Mode) here, AreWhole (mode.scan here rest).tokens) (mode : Mode)
    (here : Nat) : AreWhole (mode.scan here (u :: rest)).tokens := by
  have hbehind : AreWhole (behind (mode.read here u).2 (here + 1) rest).tokens := by
    cases (mode.read here u).2 with
    | ok next => exact hrest next (here + 1)
    | error flaw => exact .nil
  rw [scan_cons]
  split
  · exact hbehind
  · rename_i token htoken
    exact areWhole_cons_read hu htoken hbehind

/-- A pair keeps the tokens behind it whole, since neither half has a meaning of its own. -/
theorem areWhole_scan_pair {u v : CodeUnit} (hu : u.isLeading = true) (hv : v.isTrailing = true)
    {rest : Text} (hrest : ∀ (mode : Mode) here, AreWhole (mode.scan here rest).tokens)
    (mode : Mode) (here : Nat) : AreWhole (mode.scan here (u :: v :: rest)).tokens := by
  have hhalf : u.isHalf = true := by rw [isHalf, hu, Bool.true_or]
  have hhalf' : v.isHalf = true := by rw [isHalf, hv, Bool.or_true]
  have hne : ∀ c : CodeUnit, c.isAscii = true → u ≠ c := fun _ => ne_of_isHalf hhalf
  have hne' : ∀ c : CodeUnit, c.isAscii = true → v ≠ c := fun _ => ne_of_isHalf hhalf'
  have hpair : IsWhole [u, v] := .pair hu hv .nil
  have hescaped : IsWhole [backslash, u, v] := .unit (by decide) hpair
  have htext : ∀ here, text.scan here (v :: rest) =
      (text.scan (here + 1) rest).cons (.literal [v]) := by
    intro here
    simp only [scan, read, if_neg (hne' dollar rfl), if_neg (hne' backslash rfl)]
  have hargument : ∀ depth here, (argument depth).scan here (v :: rest) =
      ((argument depth).scan (here + 1) rest).cons (.unit v) := by
    intro depth here
    simp only [scan, read, if_neg (hne' backslash rfl), if_neg (hne' dollar rfl),
      if_neg (hne' comma rfl), if_neg (hne' rightParen rfl)]
  cases mode with
  | text =>
      rw [scan]
      simp only [read, if_neg (hne dollar rfl), if_neg (hne backslash rfl)]
      rw [htext, Scan.cons_literal_literal]
      exact .cons_literal hpair (hrest _ _)
  | textEscape =>
      rw [scan]
      simp only [read, if_neg (hne dollar rfl), if_neg (hne backslash rfl)]
      rw [htext, Scan.cons_literal_literal]
      exact .cons_literal hescaped (hrest _ _)
  | name depth part =>
      cases part with
      | nil =>
          simp only [scan, read, beginsName_of_isHalf hhalf]
          exact .nil
      | cons w part =>
          simp only [scan, read, continuesName_of_isHalf hhalf, if_neg (hne leftParen rfl)]
          exact .call _ _ .nil
  | argument depth =>
      rw [scan]
      simp only [read, if_neg (hne backslash rfl), if_neg (hne dollar rfl), if_neg (hne comma rfl),
        if_neg (hne rightParen rfl)]
      rw [hargument]
      exact .pair hu hv (hrest _ _)
  | argumentEscape depth =>
      rw [scan]
      simp only [read]
      rw [hargument]
      exact .pair hu hv (hrest _ _)

/-- The tokens of a whole source are whole. -/
theorem areWhole_scan {t : Text} (ht : t.IsWhole) (mode : Mode) (here : Nat) :
    AreWhole (mode.scan here t).tokens := by
  induction ht generalizing mode here with
  | nil =>
      cases mode with
      | textEscape => exact .literal (.unit (by decide) .nil) .nil
      | name depth part =>
          cases part with
          | nil => exact .nil
          | cons v part => exact .call _ _ .nil
      | _ => exact .nil
  | unit hu _ ih => exact areWhole_scan_unit hu ih mode here
  | pair hu hv _ ih => exact areWhole_scan_pair hu hv ih mode here

end Mode

/-! ## Evaluation -/

/-- An argument is whole, as a key and as output text. -/
structure Argument.IsWhole (a : Argument) : Prop where
  key : a.key.IsWhole
  text : a.text.IsWhole

/-- The arguments of an open call are whole. -/
structure OpenCall.IsWhole (c : OpenCall) : Prop where
  args : ∀ a ∈ c.args, a.IsWhole
  current : c.current.IsWhole

/-- Whole fragments one after another are whole. -/
theorem Fragment.isWhole_concat {fragments : List Fragment}
    (h : ∀ fragment ∈ fragments, fragment.text.IsWhole) : (Fragment.concat fragments).IsWhole := by
  rw [concat, List.flatMap_def]
  refine .flatten fun t ht => ?_
  obtain ⟨fragment, hfragment, rfl⟩ := List.mem_map.mp ht
  exact h fragment hfragment

/-- Everything that was written so far is whole. -/
structure Progress.IsWhole (p : Progress) : Prop where
  fragments : ∀ fragment ∈ p.fragments, fragment.text.IsWhole
  calls : ∀ c ∈ p.calls, c.IsWhole

theorem Argument.isWhole_empty : ({} : Argument).IsWhole := ⟨.nil, .nil⟩

theorem OpenCall.IsWhole.append {c : OpenCall} (h : c.IsWhole) {key text : Text}
    (hkey : key.IsWhole) (htext : text.IsWhole) : (c.append key text).IsWhole :=
  ⟨h.args, h.current.key.append hkey, h.current.text.append htext⟩

theorem OpenCall.IsWhole.completeArgument {c : OpenCall} (h : c.IsWhole) :
    c.completeArgument.IsWhole := by
  refine ⟨?_, Argument.isWhole_empty⟩
  intro a ha
  simp only [OpenCall.completeArgument] at ha
  split at ha
  · exact h.args a ha
  · rcases List.mem_append.mp ha with ha | ha
    · exact h.args a ha
    · rw [List.mem_singleton.mp ha]
      exact h.current

namespace Progress.IsWhole

variable {fragments : List Fragment} {c : OpenCall} {calls : List OpenCall}

theorem append_fragment (h : (⟨fragments, calls⟩ : Progress).IsWhole)
    {fragment : Fragment} (hfragment : fragment.text.IsWhole) :
    (⟨fragments ++ [fragment], calls⟩ : Progress).IsWhole := by
  refine ⟨?_, h.calls⟩
  intro other hother
  rcases List.mem_append.mp hother with hother | hother
  · exact h.fragments other hother
  · rw [List.mem_singleton.mp hother]
    exact hfragment

theorem innermost (h : (⟨fragments, c :: calls⟩ : Progress).IsWhole) : c.IsWhole :=
  h.calls c (List.mem_cons_self ..)

theorem outer (h : (⟨fragments, c :: calls⟩ : Progress).IsWhole) :
    (⟨fragments, calls⟩ : Progress).IsWhole :=
  ⟨h.fragments, (List.forall_mem_cons.mp h.calls).2⟩

theorem push (h : (⟨fragments, calls⟩ : Progress).IsWhole)
    (hc : c.IsWhole) : (⟨fragments, c :: calls⟩ : Progress).IsWhole :=
  ⟨h.fragments, List.forall_mem_cons.mpr ⟨hc, h.calls⟩⟩

/-- A whole rendering is handed on. -/
theorem receive {p : Progress} (h : p.IsWhole) {rendered : Text} (hrendered : rendered.IsWhole) :
    (p.receive rendered).IsWhole := by
  obtain ⟨fragments, calls⟩ := p
  cases calls with
  | nil => exact h.append_fragment hrendered
  | cons c outer => exact h.outer.push (h.innermost.append hrendered hrendered)

end Progress.IsWhole

namespace Target

/-- The target renders whole arguments to whole text, and escaping keeps whole text so. -/
structure KeepsWhole (target : Target) (manner : Manner) : Prop where
  escape {t : Text} : t.IsWhole → (manner.escape t).IsWhole
  /-- The halves of a pair in an argument are escaped one by one. -/
  escape_pair {u v : CodeUnit} : u.isLeading = true → v.isTrailing = true →
    (manner.escape [u] ++ manner.escape [v]).IsWhole
  invoke {callee : Text} {keys texts : List Text} {rendered : Text} :
    (∀ key ∈ keys, key.IsWhole) → (∀ t ∈ texts, t.IsWhole) →
      target.invoke callee keys texts = .ok rendered → rendered.IsWhole

namespace KeepsWhole

variable {target : Target} {manner : Manner} {source : Text} {p p' : Progress}

/-- A call with whole arguments is written out to whole text. -/
theorem renderCall (h : target.KeepsWhole manner) {stop : Nat} {callee : Text}
    {args : List Argument} {rendered : Text} (hargs : ∀ a ∈ args, a.IsWhole)
    (hrendered : target.renderCall manner source stop callee args = .ok rendered) :
    rendered.IsWhole := by
  have htexts : ∀ t ∈ args.map Argument.text, t.IsWhole := by
    intro t ht
    obtain ⟨a, ha, rfl⟩ := List.mem_map.mp ht
    exact (hargs a ha).text
  rcases renderCall_cases hrendered with hinvoke | rfl
  · refine h.invoke ?_ htexts hinvoke
    intro key hkey
    obtain ⟨a, ha, rfl⟩ := List.mem_map.mp hkey
    exact (hargs a ha).key
  · exact .join (Text.isWhole_ofString " ") htexts

/-- A token that is whole by itself keeps everything whole. -/
theorem step (h : target.KeepsWhole manner) {token : Token} (htoken : token.IsWhole)
    (hp : p.IsWhole) (hstep : target.step manner source p token = .ok p') : p'.IsWhole := by
  cases takes_of_step hstep with
  | literal => exact hp.append_fragment (h.escape htoken)
  | call => exact hp.push ⟨List.forall_mem_nil _, Argument.isWhole_empty⟩
  | unit =>
      have hone : Text.IsWhole [_] := .unit htoken .nil
      exact hp.outer.push (hp.innermost.append hone (h.escape hone))
  | comma => exact hp.outer.push hp.innermost.completeArgument
  | close _ _ _ _ hrendered =>
      exact hp.outer.receive (h.renderCall hp.innermost.completeArgument.args hrendered)
  | strayUnit | strayComma | strayClose => exact hp

/-- The two halves of a pair keep everything whole, although the text between them is not. -/
theorem step_pair (h : target.KeepsWhole manner) {u v : CodeUnit} (hu : u.isLeading = true)
    (hv : v.isTrailing = true) (hp : p.IsWhole) {p₁ : Progress}
    (hstep : target.step manner source p (.unit u) = .ok p₁)
    (hstep' : target.step manner source p₁ (.unit v) = .ok p') : p'.IsWhole := by
  have htwo : Text.IsWhole [u, v] := .pair hu hv .nil
  obtain ⟨fragments, calls⟩ := p
  cases calls with
  | nil =>
      cases hstep
      cases hstep'
      exact hp
  | cons c outer =>
      cases hstep
      cases hstep'
      have happend := hp.innermost.append htwo (h.escape_pair hu hv)
      simp only [OpenCall.append, List.append_assoc] at happend ⊢
      exact hp.outer.push happend

/-- A run over whole tokens keeps everything whole. -/
theorem foldlM_step (h : target.KeepsWhole manner) {tokens : List Token}
    (htokens : Token.AreWhole tokens) (hp : p.IsWhole)
    (hrun : tokens.foldlM (target.step manner source) p = .ok p') : p'.IsWhole := by
  revert p
  refine htokens.induction (P := fun tokens => ∀ {p : Progress}, p.IsWhole →
    tokens.foldlM (target.step manner source) p = .ok p' → p'.IsWhole) ?nil ?cons ?pair
  case nil =>
    intro p hp hrun
    cases hrun
    exact hp
  case cons =>
    intro token rest htoken ih p hp hrun
    rw [List.foldlM_cons] at hrun
    obtain ⟨p₁, hstep, hrest⟩ := bind_eq_ok_iff.mp hrun
    exact ih (h.step htoken hp hstep) hrest
  case pair =>
    intro u v rest hu hv ih p hp hrun
    rw [List.foldlM_cons] at hrun
    obtain ⟨p₁, hstep, hrun⟩ := bind_eq_ok_iff.mp hrun
    rw [List.foldlM_cons] at hrun
    obtain ⟨p₂, hstep', hrun⟩ := bind_eq_ok_iff.mp hrun
    exact ih (h.step_pair hu hv hp hstep hstep') hrun

/-- Every fragment of a whole source is whole. -/
theorem evaluate (h : target.KeepsWhole manner) (hsource : source.IsWhole)
    {fragments : List Fragment} (heval : target.evaluate manner source = .ok fragments) :
    ∀ fragment ∈ fragments, fragment.text.IsWhole := by
  obtain ⟨p, hrun, hfragments⟩ := bind_eq_ok_iff.mp heval
  have hp : p.IsWhole := h.foldlM_step (Mode.areWhole_scan hsource .text 0)
    ⟨List.forall_mem_nil _, List.forall_mem_nil _⟩ hrun
  split at hfragments
  · cases hfragments
  · cases hfragments
    exact hp.fragments

end KeepsWhole

end Target

end Sigil
