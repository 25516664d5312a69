import Sigil.Proofs.Expression.Cursor
import Sigil.Proofs.Expression.WholeCall

/-!
# Descent and automaton agree

The routines read what the automaton reads. Between two rounds of a loop, the run over the tokens of
the rest of the source, from the state that the routine has built up, is the run that has been begun
(`Descent.ends_arguments_run`, `Descent.readsRun_call`). So a source is written out to the same by
both (`Target.descent_advances`), and since a routine leaves its cursor within the source, no limit
is reached.
-/

namespace Sigil

open CodeUnit

/-- Open a call. -/
def Progress.push (p : Progress) (c : OpenCall) : Progress := { p with calls := c :: p.calls }

namespace Descent

open Routine

variable {β : Type} {d : Descent} {c : Nat}

/-! ## The rest of the source -/

/-- What the rest of the source reads as. -/
def scan (d : Descent) (mode : Mode) (c : Nat) : Scan := mode.scan c (d.source.drop c)

theorem scan_of_none (h : d.source[c]? = none) (mode : Mode) : d.scan mode c = mode.finish c := by
  rw [scan, List.drop_eq_nil_of_le (List.getElem?_eq_none_iff.mp h)]
  rfl

theorem drop_eq_cons {u : CodeUnit} (hu : d.source[c]? = some u) :
    d.source.drop c = u :: d.source.drop (c + 1) := by
  obtain ⟨hc, rfl⟩ := List.getElem?_eq_some_iff.mp hu
  exact List.drop_eq_getElem_cons hc

/-- At the end of the source anything holds of the unit at the cursor. -/
theorem forall_of_none {P : CodeUnit → Prop} (h : d.source[c]? = none) :
    ∀ u, d.source[c]? = some u → P u := by
  rw [h]
  exact nofun

theorem forall_of_some {P : CodeUnit → Prop} {u : CodeUnit} (hu : d.source[c]? = some u)
    (h : P u) : ∀ u', d.source[c]? = some u' → P u' := by
  rw [hu]
  rintro _ ⟨⟩
  exact h

section Units

variable {u : CodeUnit} {mode next : Mode} (hu : d.source[c]? = some u)
include hu

/-- A unit without a token is skipped. -/
theorem scan_read (h : mode.Reads u none next) : d.scan mode c = d.scan next (c + 1) := by
  rw [scan, drop_eq_cons hu, Mode.scan_cons, h.read_eq c]
  rfl

/-- A unit that completes a token puts it in front. -/
theorem scan_token {token : Nat → Token} (h : mode.Reads u (some token) next) :
    d.scan mode c = ⟨token c :: (d.scan next (c + 1)).tokens, (d.scan next (c + 1)).flaw⟩ := by
  rw [scan, drop_eq_cons hu, h.scan_eq]
  rfl

end Units

/-- Where no name stands, the scan of a name ends. -/
theorem scan_missingName (h : ∀ u, d.source[c]? = some u → u.extendsName [] = false)
    (m : Nat) : d.scan (.name m []) c = ⟨[], some (.missingName, c)⟩ := by
  cases hu : d.source[c]? with
  | none => exact scan_of_none hu _
  | some u =>
      have hname : u.beginsName = false := h u hu
      rw [scan, drop_eq_cons hu, Mode.scan_cons]
      simp [Mode.read, hname, Mode.behind]

/-- Behind a name there is its parenthesis, or the scan ends. -/
theorem scan_name_end {v : CodeUnit} {part : Text}
    (h : ∀ u, d.source[c]? = some u → u.extendsName (v :: part) = false) (m : Nat) :
    d.scan (.name m (v :: part)) c =
      if d.source[c]? = some leftParen then
        ⟨.call (v :: part) c :: (d.scan (.argument m) (c + 1)).tokens,
          (d.scan (.argument m) (c + 1)).flaw⟩
      else ⟨[.call (v :: part) c],
        some (.missingOpen, if d.source[c]?.isSome then c + 1 else c)⟩ := by
  cases hu : d.source[c]? with
  | none =>
      rw [scan_of_none hu]
      rfl
  | some u =>
      by_cases hopen : u = leftParen
      · subst hopen
        rw [if_pos rfl]
        exact scan_token hu (.openCall m v part)
      · have hname : u.continuesName = false := h u hu
        rw [if_neg (by simpa using hopen), scan, drop_eq_cons hu, Mode.scan_cons]
        simp [Mode.read, hname, hopen, Mode.behind, Scan.cons, Token.cons]

/-- A name is read up to the unit that cannot stand in it. -/
theorem ends_name_scan (d : Descent) (m c : Nat) :
    d.name.Ends c
      (fun part c' => d.scan (.name m []) c = d.scan (.name m part) c' ∧
        ∀ u, d.source[c']? = some u → u.extendsName part = false)
      (fun halt _ => halt = .limit) := by
  refine ends_loop (I := fun _ part c' => d.scan (.name m []) c = d.scan (.name m part) c')
    ?_ ?_ (fun _ _ _ _ => rfl) rfl
  · intro _ part c₁ u hu hI
    rw [ends_nameRound hu]
    split
    · rename_i hname
      cases part with
      | nil => exact hI.trans (scan_read hu (.beginName m hname))
      | cons v part => exact hI.trans (scan_read hu (.continueName m v part hname))
    · rename_i hname
      exact ⟨hI, forall_of_some hu (by simpa using hname)⟩
  · exact fun _ part c₁ hnone hI => ⟨hI, forall_of_none hnone⟩

/-! ## Runs -/

/-- A run over the tokens of a scan, which goes on as long as a call is open. -/
structure IsRun (d : Descent) (run : Scan → Progress → Except Fault β) : Prop where
  flaw (flaw : Flaw) (offset : Nat) (p : Progress) :
    run ⟨[], some (flaw, offset)⟩ p = Target.giveUp d.source offset (.flaw flaw)
  error {p : Progress} {token : Token} {fault : Fault}
    (h : d.target.step d.manner d.source p token = .error fault) (tokens : List Token)
    (flaw : Option (Flaw × Nat)) : run ⟨token :: tokens, flaw⟩ p = .error fault
  ok {p p' : Progress} {token : Token} (h : d.target.step d.manner d.source p token = .ok p')
    (hopen : p'.calls ≠ []) (tokens : List Token) (flaw : Option (Flaw × Nat)) :
    run ⟨token :: tokens, flaw⟩ p = run ⟨tokens, flaw⟩ p'

theorem isRun_run (d : Descent) : d.IsRun (d.target.run d.manner d.source) where
  flaw _ _ _ := rfl
  error h tokens flaw := by
    rw [Target.run_mk_cons, h]
    rfl
  ok h _ tokens flaw := by
    rw [Target.run_mk_cons, h]
    rfl

theorem isRun_runCallOf (d : Descent) : d.IsRun (d.target.runCallOf d.manner d.source) where
  flaw _ _ _ := rfl
  error h tokens flaw := by
    rw [Target.runCallOf, Target.runCall_cons, h]
    rfl
  ok {p p' token} h hopen tokens flaw := by
    have hgoes : p'.completed? token = none := by
      cases token with
      | close stop =>
          cases hcalls : p'.calls with
          | nil => exact absurd hcalls hopen
          | cons oc outer => simp [Progress.completed?, hcalls]
      | _ => rfl
    rw [Target.runCallOf, Target.runCall_cons, h]
    simp only [bind, Except.bind, hgoes]
    rfl

/-- Unless it has reached a limit, a routine gives up with the fault that a run ends in. -/
def Reports (v : Except Fault β) (halt : Halt) (_ : Nat) : Prop :=
  ∀ fault, halt = .fault fault → v = .error fault

theorem reports_limit {v : Except Fault β} : Reports v .limit c := nofun

theorem reports_fault {v : Except Fault β} {fault : Fault} (h : v = .error fault) :
    Reports v (.fault fault) c := by
  rintro _ ⟨⟩
  exact h

/-! ## Calls -/

variable {run : Scan → Progress → Except Fault β} {p : Progress} {v : Except Fault β}
  {call : Routine Text}

/-- A run has come to the parenthesis of a call that has been opened in a state, and the call renders
to a text. -/
def Closes (d : Descent) (run : Scan → Progress → Except Fault β) (p : Progress)
    (v : Except Fault β) (rendered : Text) (c : Nat) : Prop :=
  ∃ oc,
    v = run ⟨.close c :: (d.scan (Mode.afterClose p.calls.length) c).tokens,
      (d.scan (Mode.afterClose p.calls.length) c).flaw⟩ (p.push oc) ∧
    d.target.step d.manner d.source (p.push oc) (.close c) = .ok (p.receive rendered)

/-- The routine reads a call as a run does from any state. -/
def ReadsRun (d : Descent) (run : Scan → Progress → Except Fault β) (call : Routine Text) : Prop :=
  ∀ (p : Progress) (v : Except Fault β) (c : Nat),
    v = run (d.scan (.name p.calls.length []) c) p → call.Ends c (d.Closes run p v) (Reports v)

/-- Reading an argument leads a run from call to call with an argument in it. -/
theorem ends_argument_run (hrun : d.IsRun run) (hcall : d.ReadsRun run call) {name : Text}
    {args : List Argument}
    (hv : v = run (d.scan (.argument p.calls.length) c) (p.push ⟨name, args, {}⟩)) :
    (d.argument call).Ends c
      (fun arg c' =>
        v = run (d.scan (.argument p.calls.length) c') (p.push ⟨name, args, arg⟩) ∧
          ∀ u, d.source[c']? = some u → u = comma ∨ u = rightParen)
      (Reports v) := by
  refine ends_loop (I := fun _ arg c' =>
      v = run (d.scan (.argument p.calls.length) c') (p.push ⟨name, args, arg⟩))
    ?_ ?_ (fun _ _ _ _ => reports_limit) hv
  · intro _ arg c₁ u hu hI
    rw [ends_argumentRound hu]
    split
    · rename_i hbackslash
      subst hbackslash
      rw [scan_read hu (.beginEscape _)] at hI
      cases hnext : d.source[c₁ + 1]? with
      | none =>
          -- at the end of the source the call is given up, whatever its argument is
          refine hI.trans ?_
          rw [scan_of_none hnext]
          show run ⟨[], some (.missingClose, c₁ + 1)⟩ _ = run (d.scan _ (c₁ + 1)) _
          rw [scan_of_none hnext, hrun.flaw]
          exact (hrun.flaw _ _ _).symm
      | some u =>
          rw [scan_token hnext (.escaped _ u)] at hI
          exact hI.trans (hrun.ok rfl (List.cons_ne_nil _ _) _ _)
    split
    · rename_i hdollar
      subst hdollar
      rw [scan_read hu (.beginCall _)] at hI
      refine (hcall (p.push ⟨name, args, arg⟩) v (c₁ + 1) hI).mono ?_ fun _ _ => id
      rintro rendered c' ⟨oc, hv', hstep⟩
      exact hv'.trans (hrun.ok hstep (List.cons_ne_nil _ _) _ _)
    split
    · rename_i hends
      exact ⟨hI, forall_of_some hu hends⟩
    · rename_i hbackslash hdollar hends
      obtain ⟨hcomma, hparen⟩ := not_or.mp hends
      rw [scan_token hu (.unit _ hbackslash hdollar hcomma hparen)] at hI
      exact hI.trans (hrun.ok rfl (List.cons_ne_nil _ _) _ _)
  · exact fun _ arg c₁ hnone hI => ⟨hI, forall_of_none hnone⟩

/-- Reading arguments leads a run to the end of their call. -/
theorem ends_arguments_run (hrun : d.IsRun run) (hcall : d.ReadsRun run call) {name : Text}
    (hv : v = run (d.scan (.argument p.calls.length) c) (p.push { name })) :
    (d.arguments call).Ends c
      (fun args c' => ∃ oc : OpenCall, oc.name = name ∧ oc.completeArgument.args = args ∧
        v = run (d.scan (.argument p.calls.length) c') (p.push oc) ∧
          ∀ u, d.source[c']? = some u → u = rightParen)
      (Reports v) := by
  refine ends_loop (I := fun _ args c' =>
      v = run (d.scan (.argument p.calls.length) c') (p.push ⟨name, args, {}⟩))
    ?_ ?_ (fun _ _ _ _ => reports_limit) hv
  · intro _ args c₁ u hu hI
    rw [ends_argumentsRound]
    refine (ends_argument_run hrun hcall hI).mono ?_ fun _ _ => id
    rintro arg c₂ ⟨hv', hends⟩
    split
    · rename_i hcomma
      rw [scan_token hcomma (.endArgument _)] at hv'
      exact hv'.trans (hrun.ok rfl (List.cons_ne_nil _ _) _ _)
    · rename_i hcomma
      refine ⟨⟨name, args, arg⟩, rfl, rfl, hv', fun u hu => (hends u hu).resolve_left ?_⟩
      rintro rfl
      exact hcomma hu
  · exact fun _ args c₁ hnone hI => ⟨⟨name, args, {}⟩, rfl, rfl, hI, forall_of_none hnone⟩

/-- At the end of a call, the call is rendered or given up as by a run. -/
theorem ends_close_run (hrun : d.IsRun run) {oc : OpenCall}
    (hv : v = run (d.scan (.argument p.calls.length) c) (p.push oc))
    (hends : ∀ u, d.source[c]? = some u → u = rightParen) :
    (d.expect rightParen .missingClose).Ends c
      (fun _ c' => (ofResult (d.target.renderCall d.manner d.source c' oc.name
        oc.completeArgument.args)).Ends c' (d.Closes run p v) (Reports v))
      (Reports v) := by
  rw [ends_expect]
  split
  · rename_i hclose
    rw [scan_token hclose (.closeCall _)] at hv
    have hstep := d.target.step_close d.manner d.source p.fragments oc p.calls (c + 1)
    rw [ends_ofResult]
    cases hrendered : d.target.renderCall d.manner d.source (c + 1) oc.name
        oc.completeArgument.args with
    | ok rendered =>
        rw [hrendered] at hstep
        exact ⟨oc, hv, hstep⟩
    | error fault =>
        rw [hrendered] at hstep
        exact reports_fault (hv.trans (hrun.error hstep _ _))
  · rename_i hnot
    have hnone : d.source[c]? = none := by
      cases hu : d.source[c]? with
      | none => rfl
      | some u => exact absurd (hends u hu ▸ hu) hnot
    rw [scan_of_none hnone] at hv
    rintro c' rfl
    rw [hnone]
    exact reports_fault (hv.trans (hrun.flaw _ _ _))

/-- Behind a name, a call is opened or given up as by a run. -/
theorem ends_open_run (hrun : d.IsRun run) {w : CodeUnit} {part : Text}
    (hv : v = run (d.scan (.name p.calls.length (w :: part)) c) p)
    (hends : ∀ u, d.source[c]? = some u → u.extendsName (w :: part) = false) :
    if (d.manner.strict && !d.target.known (w :: part)) = true then
      Reports v (.fault (.parse
        ⟨.unknownCall d.target.representation (w :: part), d.source, c⟩)) c
    else (d.expect leftParen .missingOpen).Ends c
      (fun _ c' => v = run (d.scan (.argument p.calls.length) c') (p.push { name := w :: part }))
      (Reports v) := by
  rw [scan_name_end hends] at hv
  split
  · rename_i hrefused
    apply reports_fault
    rw [hv]
    split <;> exact hrun.error (by rw [Target.step, if_pos hrefused]; rfl) _ _
  · rename_i hpermitted
    have hstep : d.target.step d.manner d.source p (.call (w :: part) c) =
        .ok (p.push { name := w :: part }) := by
      rw [Target.step, if_neg hpermitted]
      rfl
    rw [ends_expect]
    split
    · rename_i hopen
      rw [if_pos hopen] at hv
      exact hv.trans (hrun.ok hstep (List.cons_ne_nil _ _) _ _)
    · rename_i hopen
      rw [if_neg hopen, hrun.ok hstep (List.cons_ne_nil _ _), hrun.flaw] at hv
      rintro c' rfl
      exact reports_fault hv

/-- Calls are read as by a run, at any depth. -/
theorem readsRun_call (hrun : d.IsRun run) (depth : Nat) : d.ReadsRun run (d.call depth) := by
  induction depth with
  | zero => exact fun _ _ c _ => reports_limit (c := c)
  | succ depth ih =>
      intro p v c hv
      simp only [Descent.call, ends_bind, ends_ite, ends_giveUp, ends_get]
      refine (ends_name_scan d p.calls.length c).mono ?_ (by rintro _ _ rfl; exact reports_limit)
      rintro name c₁ ⟨hscan, hends⟩
      rw [hscan] at hv
      -- without a name there is no token, and with one the token of the call comes first
      cases name with
      | nil =>
          rw [if_pos rfl]
          rw [scan_missingName hends, hrun.flaw] at hv
          exact reports_fault hv
      | cons w part =>
          rw [if_neg (List.cons_ne_nil w part)]
          have hopen := ends_open_run hrun hv hends
          split
          · rwa [if_pos (by assumption)] at hopen
          rw [if_neg (by assumption)] at hopen
          refine hopen.mono (fun _ c₂ hv => ?_) fun _ _ => id
          refine (ends_arguments_run hrun ih hv).mono ?_ fun _ _ => id
          rintro args c₃ ⟨oc, hname, rfl, hv, hends⟩
          rw [← hname]
          exact ends_close_run hrun hv hends

/-! ## Whole sources -/

/-- Behind a dollar sign no literal comes first. -/
theorem head?_scan_name (m c : Nat) (part rest t : Text) :
    ((Mode.name m part).scan c rest).tokens.head? ≠ some (.literal t) := by
  induction rest generalizing c part with
  | nil => cases part <;> simp [Mode.scan, Mode.finish]
  | cons u rest ih =>
      cases part with
      | nil =>
          by_cases hname : u.beginsName = true
          · simp only [Mode.scan, Mode.read, if_pos hname]
            exact ih (c + 1) [u]
          · simp [Mode.scan, Mode.read, hname]
      | cons v part =>
          by_cases hname : u.continuesName = true
          · simp only [Mode.scan, Mode.read, if_pos hname]
            exact ih (c + 1) (v :: part ++ [u])
          · simp [Mode.scan, Mode.read, hname, Scan.cons, Token.cons]

/-- Where a literal ends, no other begins. -/
theorem head?_scan_text (h : ∀ u, d.source[c]? = some u → u = dollar) (t : Text) :
    (d.scan .text c).tokens.head? ≠ some (.literal t) := by
  cases hu : d.source[c]? with
  | none =>
      rw [scan_of_none hu]
      exact nofun
  | some u =>
      obtain rfl := h u hu
      rw [scan, drop_eq_cons hu]
      exact head?_scan_name 0 (c + 1) [] _ t

/-- Literal text is read as one token. -/
theorem ends_literalRun_scan {u : CodeUnit} (hu : d.source[c]? = some u) (hdollar : u ≠ dollar) :
    d.literalRun.Ends c
      (fun text c' => ∃ t, text = d.manner.escape t ∧
        d.scan .text c = (d.scan .text c').cons (.literal t) ∧
        ∀ u, d.source[c']? = some u → u = dollar)
      (fun halt _ => halt = .limit) := by
  simp only [literalRun, ends_bind, ends_pure]
  -- the literal is empty in front of the first round only
  let I : Text → Nat → Prop := fun t c' =>
    (t = [] ∧ c' = c) ∨ d.scan .text c = (d.scan .text c').cons (.literal t)
  have hgrows : ∀ {t : Text} {c₁ c₂ : Nat} {v : CodeUnit}, I t c₁ →
      d.scan .text c₁ = (d.scan .text c₂).cons (.literal [v]) → I (t ++ [v]) c₂ := by
    rintro t c₁ c₂ v (⟨rfl, rfl⟩ | hI) hstep
    · exact .inr hstep
    · exact .inr (by rw [hI, hstep, Scan.cons_literal_literal])
  have hbegun : ∀ {t : Text} {c' : Nat}, I t c' → (∀ u, d.source[c']? = some u → u = dollar) →
      d.scan .text c = (d.scan .text c').cons (.literal t) := by
    rintro t c' (⟨rfl, rfl⟩ | hI) hend
    · exact absurd (hend u hu) hdollar
    · exact hI
  refine (ends_loop (I := fun _ => I)
    (Q := fun t c' => d.scan .text c = (d.scan .text c').cons (.literal t) ∧
      ∀ u, d.source[c']? = some u → u = dollar)
    ?_ ?_ (fun _ _ _ _ => rfl) (.inl ⟨rfl, rfl⟩)).mono (fun t c' h => ⟨t, rfl, h⟩) fun _ _ => id
  · intro _ t c₁ v hv hI
    rw [ends_literalRound hv]
    split
    · rename_i hends
      have hend : ∀ u, d.source[c₁]? = some u → u = dollar := forall_of_some hv hends
      exact ⟨hbegun hI hend, hend⟩
    split
    · rename_i hescape
      obtain ⟨rfl, hnext⟩ := hescape
      refine hgrows hI ?_
      rw [scan, drop_eq_cons hv, drop_eq_cons hnext]
      rfl
    · rename_i hne hescape
      refine hgrows hI ?_
      have hspell : (Piece.literal [v]).spell = [v] := by simp [Piece.spell, hne]
      have hunit := Mode.scan_text_unit c₁ (u := v) (d.source.drop (c₁ + 1)) fun hbackslash => by
        rw [List.head?_drop]
        exact fun hnext => hescape ⟨hbackslash, hnext⟩
      rw [hspell] at hunit
      rw [scan, drop_eq_cons hv]
      exact hunit
  · intro _ t c₁ hnone hI
    have hend : ∀ u, d.source[c₁]? = some u → u = dollar := forall_of_none hnone
    exact ⟨hbegun hI hend, hend⟩

/-- Fragments are read as by a run. -/
theorem ends_fragments_run (d : Descent) (depth : Nat) :
    (d.fragments depth).Ends 0
      (fun fragments _ => d.target.evaluate d.manner d.source = .ok fragments)
      (Reports (d.target.evaluate d.manner d.source)) := by
  rw [Target.evaluate_eq_run]
  refine (ends_loop (I := fun _ fragments c =>
      d.target.run d.manner d.source (Scan.ofText d.source) {} =
        d.target.run d.manner d.source (d.scan .text c) ⟨fragments, []⟩)
    (Q := fun fragments _ =>
      d.target.run d.manner d.source (Scan.ofText d.source) {} = .ok ⟨fragments, []⟩)
    (E := Reports (d.target.run d.manner d.source (Scan.ofText d.source) {}))
    ?_ ?_ (fun _ _ _ _ => reports_limit) rfl).mono ?_ ?_
  · intro _ fragments c u hu hI
    simp only [fragment, ends_bind, ends_peek, ends_ite, ends_consume, ends_pure]
    split
    · rename_i hdollar
      have hscan : d.scan .text c = d.scan (.name 0 []) (c + 1) := by
        rw [scan, drop_eq_cons hdollar]
        rfl
      rw [hscan] at hI
      rw [hdollar]
      refine (readsRun_call d.isRun_run depth ⟨fragments, []⟩ _ (c + 1) hI).mono ?_ fun _ _ => id
      rintro rendered c' ⟨oc, hv, hstep⟩
      rw [Target.run_mk_cons, hstep] at hv
      exact hv
    · rename_i hdollar
      refine (ends_literalRun_scan hu fun h => hdollar (h ▸ hu)).mono ?_
        (by rintro _ _ rfl; exact reports_limit)
      rintro text c' ⟨t, rfl, hscan, hends⟩
      rw [hscan, Target.run_cons _ fun _ t' _ => head?_scan_text hends t'] at hI
      exact hI
  · intro _ fragments c hnone hI
    rw [hI, scan_of_none hnone]
    rfl
  · intro fragments _ h
    rw [h]
    rfl
  · intro halt c h fault hfault
    rw [h fault hfault]
    rfl

/-- The call at an offset is read as by a run. -/
theorem ends_parseCall_run {options : Options} (hmanner : options.manner d.target = d.manner)
    (depth offset : Nat) :
    (d.parseCall depth).Ends offset
      (fun result _ => d.target.parseCall d.source offset options = .ok result)
      (Reports (d.target.parseCall d.source offset options)) := by
  rw [Target.parseCall, hmanner]
  simp only [parseCall, ends_bind, ends_pure, ends_get]
  rw [ends_expect]
  split
  · rename_i hdollar
    have hcall : d.target.evaluateCall d.manner d.source offset =
        d.target.runCallOf d.manner d.source (d.scan (.name 0 []) (offset + 1)) {} := by
      rw [Target.evaluateCall, Scan.ofCall, drop_eq_cons hdollar]
      rfl
    refine (readsRun_call d.isRun_runCallOf depth {} _ (offset + 1) hcall).mono ?_ ?_
    · rintro rendered c' ⟨oc, hv, hstep⟩
      rw [Target.runCallOf, Target.runCall_cons, hstep] at hv
      rw [hv]
      rfl
    · intro halt c' h fault hfault
      rw [h fault hfault]
      rfl
  · rename_i hdollar
    rintro c' rfl
    apply reports_fault
    rw [Target.evaluateCall, Scan.ofCall]
    cases hu : d.source[offset]? with
    | none =>
        rw [List.drop_eq_nil_of_le (List.getElem?_eq_none_iff.mp hu)]
        rfl
    | some u =>
        have hne : u ≠ dollar := fun h => hdollar (h ▸ hu)
        rw [drop_eq_cons hu]
        simp only [if_neg hne]
        rfl

/-! ## Limits that suffice -/

/-- A routine that reports a run and reaches no limit comes to what the run comes to. -/
theorem outcome?_eq {α : Type} {r : Routine α} {v : Except Fault α} {Q : α → Nat → Prop}
    (h : r.Ends c (fun a _ => v = .ok a) (Reports v))
    (hlimit : r.Ends c Q (fun halt _ => halt ≠ .limit)) : r.outcome? c = some v := by
  have hboth := h.and hlimit
  unfold Routine.Ends at hboth
  unfold Routine.outcome?
  cases hrun : r.run c with
  | ok a c' =>
      rw [hrun] at hboth
      rw [hboth.1]
  | error halt c' =>
      rw [hrun] at hboth
      cases halt with
      | fault fault => rw [hboth.1 fault rfl]
      | limit => exact absurd rfl hboth.2

variable {depth : Nat}

theorem outcome?_fragments (hlimit : d.source.length ≤ d.limit) (hdepth : d.source.length ≤ depth) :
    (d.fragments depth).outcome? 0 = some (d.target.evaluate d.manner d.source) :=
  outcome?_eq (d.ends_fragments_run depth)
    ((ends_fragments depth).mono (fun _ _ => id) fun _ _ h => h.2.2 ⟨hlimit, hdepth⟩)

theorem outcome?_parse (hlimit : d.source.length ≤ d.limit) (hdepth : d.source.length ≤ depth)
    {options : Options} (hmanner : options.manner d.target = d.manner) :
    (d.parse depth).outcome? 0 = some (d.target.parse d.source options) := by
  rw [Target.parse, hmanner]
  refine outcome?_eq (Q := fun _ _ => True) ?_ ?_
  · simp only [parse, ends_bind, ends_pure]
    refine (d.ends_fragments_run depth).mono (fun fragments _ h => by rw [h]; rfl) ?_
    intro halt c' h fault hfault
    rw [h fault hfault]
    rfl
  · simp only [parse, ends_bind, ends_pure]
    exact (ends_fragments depth).mono (fun _ _ _ => trivial) fun _ _ h => h.2.2 ⟨hlimit, hdepth⟩

theorem outcome?_parseCall (hlimit : d.source.length ≤ d.limit) (hdepth : d.source.length ≤ depth)
    {options : Options} (hmanner : options.manner d.target = d.manner) (offset : Nat) :
    (d.parseCall depth).outcome? offset = some (d.target.parseCall d.source offset options) := by
  refine outcome?_eq (Q := fun _ _ => True) (ends_parseCall_run hmanner depth offset) ?_
  by_cases hoffset : offset ≤ d.source.length
  · exact (ends_parseCall depth hoffset).mono (fun _ _ _ => trivial) fun _ _ h =>
      h.2.2 ⟨hlimit, by omega⟩
  · have hnone : d.source[offset]? = none :=
      List.getElem?_eq_none (Nat.le_of_lt (Nat.not_le.mp hoffset))
    simp only [parseCall, ends_bind]
    rw [ends_expect, hnone]
    exact fun _ _ => nofun

end Descent

namespace Target

/-- The descent always advances and stays within the source. From any place in the source, a
fragment that is read moves the cursor; a call moves it and ends behind a closing parenthesis; an
argument ends with the source, or in front of a comma or a closing parenthesis that is not escaped;
and no routine leaves the cursor in front of the place where it was, or behind the source. So there
are no more fragments than units, and calls nest no more deeply than there are units: with as many
rounds for a loop, and nesting as deep, the descent comes to what evaluation comes to on every
source. -/
theorem descent_advances (target : Target) (source : Text) (options : Options)
    (limit depth : Nat) :
    let d : Descent := ⟨target, options.manner target, source, limit⟩
    let n := source.length
    (∀ c ≤ n,
      (c < n → (d.fragment depth).Ends c (fun _ c' => c < c' ∧ c' ≤ n)
        (d.Stops c (n ≤ limit ∧ n ≤ c + depth))) ∧
      (d.call depth).Ends c
        (fun _ c' => c < c' ∧ c' ≤ n ∧ source[c' - 1]? = some rightParen)
        (d.Stops c (n ≤ limit ∧ n < c + depth)) ∧
      (d.argument (d.call depth)).Ends c
        (fun _ c' => c ≤ c' ∧ c' ≤ n ∧ (c' = n ∨
          (source[c']? = some comma ∨ source[c']? = some rightParen) ∧
            (d.between c c').escapesNext = false))
        (d.Stops c (n ≤ limit ∧ n ≤ c + depth)) ∧
      (d.arguments (d.call depth)).Ends c (fun _ c' => c ≤ c' ∧ c' ≤ n)
        (d.Stops c (n ≤ limit ∧ n ≤ c + depth)) ∧
      d.name.Ends c (fun _ c' => c ≤ c' ∧ c' ≤ n) (d.Stops c (n ≤ limit)) ∧
      d.literalRun.Ends c (fun _ c' => c ≤ c' ∧ c' ≤ n) (d.Stops c (n ≤ limit)) ∧
      (d.parseCall depth).Ends c (fun result c' => c < c' ∧ c' ≤ n ∧ result.2 = c')
        (d.Stops c (n ≤ limit ∧ n ≤ c + depth))) ∧
    (d.fragments depth).Ends 0 (fun fragments c => c = n ∧ fragments.length ≤ n)
      (d.Stops 0 (n ≤ limit ∧ n ≤ depth)) ∧
    (n ≤ limit → n ≤ depth →
      (d.fragments depth).outcome? 0 = some (target.evaluate (options.manner target) source) ∧
      (d.parse depth).outcome? 0 = some (target.parse source options) ∧
      ∀ offset,
        (d.parseCall depth).outcome? offset = some (target.parseCall source offset options)) := by
  intro d n
  refine ⟨fun c (hc : c ≤ d.source.length) => ?_, ?_, fun hlimit hdepth => ?_⟩
  · have hcall := d.readsCall_call depth
    exact ⟨fun (hlt : c < d.source.length) => Descent.ends_fragment depth hlt, hcall c hc,
      Descent.ends_argument hcall hc,
      Descent.ends_arguments hcall hc,
      (Descent.ends_name hc).mono (fun _ _ h => ⟨h.1, h.2.1⟩) fun _ _ => id,
      (Descent.ends_literalRun hc).mono (fun _ _ h => ⟨h.1, h.2.1⟩) fun _ _ => id,
      (Descent.ends_parseCall depth hc).mono (fun _ _ h => ⟨h.1, h.2.1, h.2.2.1⟩) fun _ _ => id⟩
  · refine (Descent.ends_fragments depth).mono ?_ fun _ _ => id
    rintro fragments c ⟨rfl, hlength⟩
    exact ⟨rfl, hlength⟩
  · exact ⟨Descent.outcome?_fragments hlimit hdepth, Descent.outcome?_parse hlimit hdepth rfl,
      Descent.outcome?_parseCall hlimit hdepth rfl⟩

/-- An escaped comma in front of one that ends an argument, and a call in a call. -/
theorem descent_advances_sample :
    let source : Text := "a$echo(b\\,,$lost(c))"
    let d : Descent := ⟨sample, {}, source, 20⟩
    source.length = 20 ∧
      (d.fragment 20).run 1 = .ok ⟨.call, "b,c"⟩ 20 ∧ 1 < 20 ∧
      (d.argument (d.call 20)).run 7 = .ok ⟨"b,", "b,"⟩ 10 ∧
      (source[10]? = some comma ∨ source[10]? = some rightParen) ∧
      (d.between 7 10).escapesNext = false ∧
      (d.fragments 20).outcome? 0 =
        some (.ok [⟨.literal, "a"⟩, ⟨.call, "b,c"⟩]) ∧
      (d.parse 20).outcome? 0 = some (.ok "ab,c") ∧
      (d.parseCall 20).outcome? 1 = some (.ok ("b,c", 20)) := by
  intro source d
  have hlength : source.length = 20 := rfl
  have hplace : ∀ c ≤ 20, c ≤ source.length := fun c hc => hlength ▸ hc
  obtain ⟨hplaces, -, htotal⟩ := descent_advances sample source {} 20 20
  obtain ⟨hfragment, -⟩ := hplaces 1 (hplace 1 (by decide))
  obtain ⟨-, -, hargument, -⟩ := hplaces 7 (hplace 7 (by decide))
  have hfragmentRun : (d.fragment 20).run 1 = .ok ⟨.call, "b,c"⟩ 20 := rfl
  have hargumentRun : (d.argument (d.call 20)).run 7 = .ok ⟨"b,", "b,"⟩ 10 := rfl
  obtain ⟨hmoved, -⟩ := (hfragment (hplace 2 (by decide))).of_run hfragmentRun
  obtain ⟨-, -, hends⟩ := hargument.of_run hargumentRun
  obtain ⟨hcomma, hescape⟩ := hends.resolve_left (by rw [hlength]; decide)
  obtain ⟨hfragments, hparse, hcall⟩ := htotal (Nat.le_of_eq hlength) (Nat.le_of_eq hlength)
  exact ⟨hlength, hfragmentRun, hmoved, hargumentRun, hcomma, hescape, hfragments, hparse,
    hcall 1⟩

end Target

end Sigil
