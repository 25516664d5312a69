import Sigil.Proofs.Expression.Reading
import Sigil.Proofs.Expression.Steps

/-!
# Properties that evaluation keeps

A property of text that escaping establishes and that rendering a call keeps, if its arguments have
it, holds of every fragment of every evaluation (`Target.Keeps.evaluate`), and of every call that is
written out by itself (`Target.Keeps.evaluateCall`). Escaping may rely on the units of the source:
evaluation hands nothing else to it (`Mode.units_scan`).
-/

namespace Sigil

/-- The units of the source that a token passes on to the output. -/
def Token.units : Token → Text
  | .literal t => t
  | .unit u => [u]
  | _ => []

/-- The units of the source that a scan passes on to the output. -/
def Scan.units (s : Scan) : Text := s.tokens.flatMap Token.units

/-- Joining literals changes no units. -/
theorem Scan.units_cons (token : Token) (s : Scan) :
    (s.cons token).units = token.units ++ s.units :=
  flatMap_cons (fun _ _ => rfl) token s

namespace Mode

open CodeUnit Scan

/-- What has been read and may still be passed on. -/
def pending : Mode → Text
  | textEscape => [backslash]
  | _ => []

/-- What the result of reading a unit leaves pending. -/
def left (result : Except (Flaw × Nat) Mode) : Text :=
  match result with
  | .ok next => next.pending
  | .error _ => []

/-- A unit and what was pending in front of it are passed on, are left pending, or are dropped. -/
theorem units_read (mode : Mode) (here : Nat) (u : CodeUnit) :
    ((mode.read here u).1.toList.flatMap Token.units ++ left (mode.read here u).2).Sublist
      (mode.pending ++ [u]) := by
  have hread := mode.transition_read here u
  generalize (mode.read here u).1 = token? at hread ⊢
  generalize (mode.read here u).2 = result at hread ⊢
  cases hread with
  | literal | notEscaped | unit | escaped => exact List.Sublist.refl _
  | textBackslash hu => simp [left, pending, hu]
  -- only the escape of a dollar sign drops something that was pending
  | escapedDollar hu | escapedBackslash hu => simp [left, pending, Token.units, hu]
  | _ => exact List.nil_sublist _

/-- A scan passes on units of the source, in their order. -/
theorem units_scan (mode : Mode) (here : Nat) (t : Text) :
    (mode.scan here t).units.Sublist (mode.pending ++ t) := by
  induction t generalizing mode here with
  | nil =>
      cases mode with
      | name depth part => cases part <;> simp [scan, finish, units, Token.units, pending]
      | _ => simp [scan, finish, units, Token.units, pending]
  | cons u rest ih =>
      have hbehind : (behind (mode.read here u).2 (here + 1) rest).units.Sublist
          (left (mode.read here u).2 ++ rest) := by
        cases (mode.read here u).2 with
        | ok next => exact ih next (here + 1)
        | error flaw => exact List.nil_sublist _
      have hunits : (mode.scan here (u :: rest)).units =
          (mode.read here u).1.toList.flatMap Token.units ++
            (behind (mode.read here u).2 (here + 1) rest).units := by
        rw [scan_cons]
        cases (mode.read here u).1 with
        | none => rfl
        | some token => simp [units_cons]
      rw [hunits, List.append_cons]
      refine ((List.Sublist.refl _).append hbehind).trans ?_
      rw [← List.append_assoc]
      exact (units_read mode here u).append (List.Sublist.refl _)

end Mode

/-- The scan of a source passes on units of the source. -/
theorem Scan.mem_of_mem_units_ofText {source : Text} {u : CodeUnit}
    (h : u ∈ (Scan.ofText source).units) : u ∈ source :=
  (Mode.units_scan .text 0 source).subset h

/-- The scan from a call on passes on units of the source. -/
theorem Scan.mem_of_mem_units_ofCall {source : Text} {offset : Nat} {u : CodeUnit}
    (h : u ∈ (Scan.ofCall source offset).units) : u ∈ source := by
  unfold Scan.ofCall at h
  split at h
  · cases h
  · rename_i v rest hdrop
    split at h
    · have hrest : u ∈ rest := (Mode.units_scan (.name 0 []) (offset + 1) rest).subset h
      have hmem : u ∈ source.drop offset := by
        rw [hdrop]
        exact List.mem_cons_of_mem _ hrest
      exact List.mem_of_mem_drop hmem
    · cases h

/-- The output text of every argument of an open call has a property. -/
structure OpenCall.Kept (P : Text → Prop) (c : OpenCall) : Prop where
  args : ∀ a ∈ c.args, P a.text
  current : P c.current.text

/-- Completing an argument keeps the property. -/
theorem OpenCall.Kept.completeArgument {P : Text → Prop} (hnil : P []) {c : OpenCall}
    (h : c.Kept P) : c.completeArgument.Kept P := by
  refine ⟨?_, hnil⟩
  intro a ha
  simp only [OpenCall.completeArgument] at ha
  split at ha
  · exact h.args a ha
  · rcases List.mem_append.mp ha with ha | ha
    · exact h.args a ha
    · rw [List.mem_singleton.mp ha]
      exact h.current

/-- Everything that was written so far has a property. -/
structure Progress.Kept (P : Text → Prop) (p : Progress) : Prop where
  fragments : ∀ fragment ∈ p.fragments, P fragment.text
  calls : ∀ c ∈ p.calls, c.Kept P

/-- A fragment behind all others keeps the property if it has it. -/
theorem Progress.Kept.append_fragment {P : Text → Prop} {p : Progress} (hp : p.Kept P)
    {fragment : Fragment} (hfragment : P fragment.text) :
    ({ p with fragments := p.fragments ++ [fragment] } : Progress).Kept P := by
  refine ⟨?_, hp.calls⟩
  intro other hother
  rcases List.mem_append.mp hother with hother | hother
  · exact hp.fragments other hother
  · rw [List.mem_singleton.mp hother]
    exact hfragment

/-- The innermost open call has the property. -/
theorem Progress.Kept.innermost {P : Text → Prop} {fragments : List Fragment} {c : OpenCall}
    {outer : List OpenCall} (hp : (⟨fragments, c :: outer⟩ : Progress).Kept P) : c.Kept P :=
  hp.calls c (List.mem_cons_self ..)

/-- Changing the innermost open call keeps the property if the changed call has it. -/
theorem Progress.Kept.set_innermost {P : Text → Prop} {fragments : List Fragment}
    {c c' : OpenCall} {outer : List OpenCall} (hp : (⟨fragments, c :: outer⟩ : Progress).Kept P)
    (hc' : c'.Kept P) : (⟨fragments, c' :: outer⟩ : Progress).Kept P :=
  ⟨hp.fragments, List.forall_mem_cons.mpr ⟨hc', (List.forall_mem_cons.mp hp.calls).2⟩⟩

/-- The call that a token completes is the last fragment. -/
theorem Progress.mem_fragments_of_completed? {p : Progress} {token : Token} {result : Text × Nat}
    (h : p.completed? token = some result) :
    ∃ fragment ∈ p.fragments, fragment.text = result.1 := by
  unfold Progress.completed? at h
  split at h
  · rename_i fragment _ hfragments
    cases h
    rw [hfragments]
    exact ⟨fragment, by simp, rfl⟩
  · cases h

/-- Nothing was written at first. -/
theorem Progress.kept_initial (P : Text → Prop) : ({} : Progress).Kept P :=
  ⟨List.forall_mem_nil _, List.forall_mem_nil _⟩

namespace Target

variable {target : Target} {manner : Manner} {admits : CodeUnit → Prop} {P : Text → Prop}

/-- The target keeps a property of text, when the units of the source are admitted. -/
structure Keeps (target : Target) (manner : Manner) (admits : CodeUnit → Prop)
    (P : Text → Prop) : Prop where
  nil : P []
  append {s t : Text} : P s → P t → P (s ++ t)
  space : P " "
  escape {t : Text} : (∀ u ∈ t, admits u) → P (manner.escape t)
  invoke {callee : Text} {keys texts : List Text} {rendered : Text} :
    (∀ t ∈ texts, P t) → target.invoke callee keys texts = .ok rendered → P rendered

namespace Keeps

variable {source : Text}

/-- Texts with blanks between them keep the property. -/
theorem join (h : target.Keeps manner admits P) {ts : List Text} (hts : ∀ t ∈ ts, P t) :
    P (Text.join " " ts) := by
  rw [Text.join]
  induction ts with
  | nil => exact h.nil
  | cons t ts ih =>
      have hrest := ih fun t ht => hts t (by simp [ht])
      cases ts with
      | nil => simpa using hts t (by simp)
      | cons t' ts =>
          rw [List.intercalate_cons_cons]
          exact h.append (h.append (hts t (by simp)) h.space) hrest

/-- A rendered call has the property if its arguments have it, and so has what replaces a call that
cannot be rendered. -/
theorem renderCall (h : target.Keeps manner admits P) {stop : Nat} {callee : Text}
    {args : List Argument} {rendered : Text} (hargs : ∀ a ∈ args, P a.text)
    (hrendered : target.renderCall manner source stop callee args = .ok rendered) :
    P rendered := by
  -- the property is asked of the texts alone, since keys hold the source as it stands
  have htexts : ∀ t ∈ args.map Argument.text, P t := by
    intro t ht
    obtain ⟨a, ha, rfl⟩ := List.mem_map.mp ht
    exact hargs a ha
  rcases renderCall_cases hrendered with hinvoke | rfl
  · exact h.invoke htexts hinvoke
  · exact h.join htexts

/-- Adding text that has the property to an argument keeps it, whatever is added to the key. -/
theorem append_kept (h : target.Keeps manner admits P) {c : OpenCall} (hc : c.Kept P)
    (key : Text) {t : Text} (ht : P t) : (c.append key t).Kept P :=
  ⟨hc.args, h.append hc.current ht⟩

/-- Handing on a rendered call that has the property keeps it. -/
theorem receive_kept (h : target.Keeps manner admits P) {p : Progress} (hp : p.Kept P)
    {rendered : Text} (hrendered : P rendered) : (p.receive rendered).Kept P := by
  obtain ⟨fragments, calls⟩ := p
  cases calls with
  | nil => exact hp.append_fragment hrendered
  | cons c outer =>
      exact hp.set_innermost (h.append_kept hp.innermost rendered hrendered)

/-- One token keeps the property of everything written. -/
theorem step (h : target.Keeps manner admits P) {p p' : Progress} {token : Token}
    (hunits : ∀ u ∈ token.units, admits u) (hp : p.Kept P)
    (hstep : target.step manner source p token = .ok p') : p'.Kept P := by
  cases takes_of_step hstep with
  | literal => exact hp.append_fragment (h.escape hunits)
  | call =>
      refine ⟨hp.fragments, List.forall_mem_cons.mpr ⟨?_, hp.calls⟩⟩
      exact ⟨List.forall_mem_nil _, h.nil⟩
  | unit _ _ _ u =>
      exact hp.set_innermost (h.append_kept hp.innermost [u] (h.escape hunits))
  | comma => exact hp.set_innermost (hp.innermost.completeArgument h.nil)
  | close fragments c outer _ hrendered =>
      have hrest : (⟨fragments, outer⟩ : Progress).Kept P :=
        ⟨hp.fragments, (List.forall_mem_cons.mp hp.calls).2⟩
      have hargs := (hp.innermost.completeArgument h.nil).args
      exact h.receive_kept hrest (h.renderCall hargs hrendered)
  | strayUnit | strayComma | strayClose => exact hp

/-- A run keeps the property of everything written. -/
theorem run (h : target.Keeps manner admits P) {s : Scan} {p p' : Progress}
    (hunits : ∀ u ∈ s.units, admits u) (hp : p.Kept P)
    (hrun : target.run manner source s p = .ok p') : p'.Kept P := by
  obtain ⟨tokens, flaw⟩ := s
  induction tokens generalizing p with
  | nil =>
      cases flaw with
      | none =>
          cases hrun
          exact hp
      | some flaw => cases hrun
  | cons token rest ih =>
      simp only [Scan.units, List.flatMap_cons, List.forall_mem_append] at hunits
      rw [run_mk_cons] at hrun
      obtain ⟨p₁, hstep, hrest⟩ := bind_eq_ok_iff.mp hrun
      exact ih (h.step hunits.1 hp hstep) hunits.2 hrest

/-- The call that a run completes first has the property. -/
theorem runCall (h : target.Keeps manner admits P) {tokens : List Token}
    {flaw : Option (Flaw × Nat)} {p : Progress} {result : Text × Nat}
    (hunits : ∀ u ∈ (⟨tokens, flaw⟩ : Scan).units, admits u) (hp : p.Kept P)
    (hrun : target.runCall manner source flaw p tokens = .ok result) : P result.1 := by
  induction tokens generalizing p with
  | nil =>
      cases flaw with
      | none =>
          cases hrun
          exact h.nil
      | some flaw => cases hrun
  | cons token rest ih =>
      simp only [Scan.units, List.flatMap_cons, List.forall_mem_append] at hunits
      rw [runCall_cons] at hrun
      obtain ⟨p₁, hstep, hrest⟩ := bind_eq_ok_iff.mp hrun
      have hp₁ := h.step hunits.1 hp hstep
      cases hcompleted : p₁.completed? token with
      | none =>
          rw [hcompleted] at hrest
          exact ih hunits.2 hp₁ hrest
      | some completed =>
          rw [hcompleted] at hrest
          cases hrest
          obtain ⟨fragment, hfragment, htext⟩ := p₁.mem_fragments_of_completed? hcompleted
          rw [← htext]
          exact hp₁.fragments fragment hfragment

/-- Every fragment of a source has the property. -/
theorem evaluate (h : target.Keeps manner admits P) (hsource : ∀ u ∈ source, admits u)
    {fragments : List Fragment} (heval : target.evaluate manner source = .ok fragments) :
    ∀ fragment ∈ fragments, P fragment.text := by
  rw [evaluate_eq_run] at heval
  obtain ⟨p, hrun, hfragments⟩ := bind_eq_ok_iff.mp heval
  cases hfragments
  have hunits : ∀ u ∈ (Scan.ofText source).units, admits u := by
    intro u hu
    exact hsource u (Scan.mem_of_mem_units_ofText hu)
  exact (h.run hunits (Progress.kept_initial P) hrun).fragments

/-- All of the output of a source has the property before the last pass. -/
theorem concat (h : target.Keeps manner admits P) {fragments : List Fragment}
    (hfragments : ∀ fragment ∈ fragments, P fragment.text) : P (Fragment.concat fragments) := by
  induction fragments with
  | nil => exact h.nil
  | cons fragment rest ih =>
      rw [List.forall_mem_cons] at hfragments
      exact h.append hfragments.1 (ih hfragments.2)

/-- A call that is written out by itself has the property. -/
theorem evaluateCall (h : target.Keeps manner admits P) (hsource : ∀ u ∈ source, admits u)
    {offset : Nat} {result : Text × Nat}
    (heval : target.evaluateCall manner source offset = .ok result) : P result.1 := by
  have hunits : ∀ u ∈ (Scan.ofCall source offset).units, admits u := by
    intro u hu
    exact hsource u (Scan.mem_of_mem_units_ofCall hu)
  exact h.runCall hunits (Progress.kept_initial P) heval

end Keeps

end Target

end Sigil
