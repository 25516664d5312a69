import Sigil.Proofs.Occurrences
import Sigil.Proofs.Results
import Sigil.Renderings.History

/-!
# What the history of renderings tells

Renderings answer as the log of those operations tells that succeeded (`ofHistory_follows_log`). An
operation that fails leaves no trace: an expression is written out in all representations before the
first of them is replaced, and a name is resolved before anything is done with it.
-/

namespace Sigil.Renderings

variable {e : Engine}

theorem faultOf?_eq_some_iff {α : Type} {x : Except Fault α} {fault : Fault} :
    faultOf? x = some fault ↔ x = .error fault := by
  cases x <;> simp [faultOf?]

theorem faultOf?_eq_none_iff {α : Type} {x : Except Fault α} :
    faultOf? x = none ↔ ∃ a, x = .ok a := by
  cases x <;> simp [faultOf?]

/-! ## Writing out -/

/-- Writing out fails with the fault of the first representation that fails. -/
theorem outcomes_eq_error_iff {source : Text} {fault : Fault} :
    outcomes e source = .error fault ↔
      ∃ before r after, Representation.all = before ++ r :: after ∧
        (∀ r' ∈ before, ∃ out, e.parse r' source = .ok out) ∧ e.parse r source = .error fault := by
  have hparse : ∀ r fault, (do return (r, ← e.parse r source) :
      Except Fault (Representation × Text)) = .error fault ↔ e.parse r source = .error fault := by
    intro r fault
    cases e.parse r source <;> simp [bind, Except.bind, pure, Except.pure]
  have hok : ∀ r, (∃ entry, (do return (r, ← e.parse r source) :
      Except Fault (Representation × Text)) = .ok entry) ↔ ∃ out, e.parse r source = .ok out := by
    intro r
    cases e.parse r source <;> simp [bind, Except.bind, pure, Except.pure]
  simp only [outcomes, mapM_eq_error_iff, hparse, hok]

/-- What is said of an expression is the fault with which writing it out fails. -/
theorem firstFault?_eq_some_iff {source : Text} {fault : Fault} :
    firstFault? e source = some fault ↔ outcomes e source = .error fault := by
  rw [firstFault?, List.findSome?_eq_some_iff, outcomes_eq_error_iff]
  simp only [faultOf?_eq_some_iff, faultOf?_eq_none_iff]
  constructor
  · rintro ⟨before, r, after, hall, hfault, hbefore⟩
    exact ⟨before, r, after, hall, hbefore, hfault⟩
  · rintro ⟨before, r, after, hall, hbefore, hfault⟩
    exact ⟨before, r, after, hall, hfault, hbefore⟩

/-- Writing out step by step gives the renderings of the expression, or its fault. -/
theorem outcomes_eq (e : Engine) (source : Text) :
    outcomes e source = (do
      let codes ← render e source
      return Representation.all.map fun r => (r, codes.get r)) := by
  simp only [outcomes, render, Representation.all, List.mapM_cons, List.mapM_nil]
  cases e.parse .plain source with
  | error fault => rfl
  | ok plain =>
      cases e.parse .unicode source with
      | error fault => rfl
      | ok unicode =>
          cases e.parse .html source with
          | error fault => rfl
          | ok html => cases e.parse .latex source <;> rfl

/-- The renderings of an expression are what it is written out to. -/
theorem parse_of_render {source : Text} {codes : PerRepresentation Text}
    (h : render e source = .ok codes) (r : Representation) :
    e.parse r source = .ok (codes.get r) := by
  have houtcomes : outcomes e source = .ok (Representation.all.map fun r => (r, codes.get r)) := by
    rw [outcomes_eq, h]
    rfl
  obtain ⟨entry, hentry, hresult⟩ := exists_result_of_mapM houtcomes (Representation.mem_all r)
  obtain ⟨r', -, rfl⟩ := List.mem_map.mp hentry
  obtain ⟨out, hout, heq⟩ := bind_eq_ok_iff.mp hresult
  cases heq
  exact hout

/-- An expression has renderings if no representation fails, and otherwise the fault of the first
that does. -/
theorem render_eq (e : Engine) (source : Text) :
    match firstFault? e source with
    | some fault => render e source = .error fault
    | none => ∃ codes, render e source = .ok codes := by
  have houtcomes := outcomes_eq e source
  cases hrender : render e source with
  | error fault =>
      rw [hrender] at houtcomes
      rw [firstFault?_eq_some_iff.mpr houtcomes]
  | ok codes =>
      cases hfault : firstFault? e source with
      | none => exact ⟨codes, rfl⟩
      | some fault =>
          rw [firstFault?_eq_some_iff, houtcomes, hrender] at hfault
          cases hfault

/-! ## Single operations -/

/-- Entries that are written one after another replace codes one after another. -/
theorem forM_write (entries : List (Representation × Text)) (s : Renderings) :
    (entries.forM write : Action Unit) s =
      .ok () { s with
        codes := entries.foldl (fun codes entry => codes.set entry.1 entry.2) s.codes } := by
  induction entries generalizing s with
  | nil => rfl
  | cons entry entries ih =>
      show (entries.forM write : Action Unit) { s with codes := s.codes.set entry.1 entry.2 } = _
      rw [ih]
      rfl

/-- Evaluating step by step leaves the renderings of the expression, or those from before with the
fault. -/
theorem run_evaluate (e : Engine) (source : Text) (s : Renderings) :
    (Operation.evaluate source).run e s =
      match render e source with
      | .ok codes => .ok (some (codes.get s.default)) { s with codes }
      | .error fault => .error fault s := by
  have hrun : (Operation.evaluate source).run e s =
      match outcomes e source with
      | .ok entries =>
        (do entries.forM write; return some (← getThe Renderings).value : Action (Option Text)) s
      | .error fault => .error fault s := by
    simp only [Operation.run]
    cases outcomes e source <;> rfl
  rw [hrun, outcomes_eq]
  cases render e source with
  | error fault => rfl
  | ok codes =>
      -- all four codes are replaced, so that nothing is left of the old ones
      have hcodes : (Representation.all.map fun r => (r, codes.get r)).foldl
          (fun codes entry => codes.set entry.1 entry.2) s.codes = codes := rfl
      show (do (Representation.all.map fun r => (r, codes.get r)).forM write
               return some (← getThe Renderings).value : Action (Option Text)) s = _
      simp only [bind, EStateM.bind, forM_write, hcodes]
      rfl

namespace Operation

/-- Replacing a code step by step leaves what `Renderings.set` gives. -/
theorem run_set (e : Engine) (representation code : Text) (s : Renderings) :
    (Operation.set representation code).run e s =
      match s.set representation code with
      | .ok s' => .ok none s'
      | .error fault => .error fault s := by
  simp only [run, Renderings.set]
  cases Representation.resolve representation <;> rfl

/-- Choosing the default representation step by step leaves what `Renderings.setDefault` gives. -/
theorem run_setDefault (e : Engine) (representation : Text) (s : Renderings) :
    (Operation.setDefault representation).run e s =
      match s.setDefault representation with
      | .ok s' => .ok none s'
      | .error fault => .error fault s := by
  simp only [run, Renderings.setDefault]
  cases Representation.resolve representation <;> rfl

/-- Looking a code up gives what `Renderings.get` gives and changes nothing. -/
theorem run_get (e : Engine) (representation : Text) (s : Renderings) :
    (Operation.get representation).run e s =
      match s.get representation with
      | .ok code => .ok (some code) s
      | .error fault => .error fault s := by
  simp only [run, Renderings.get]
  cases Representation.resolve representation <;> rfl

/-- An operation that says that it fails does so, and leaves everything as it was. -/
theorem run_of_fault {op : Operation} {fault : Fault} (h : op.fault? e = some fault)
    (s : Renderings) : op.run e s = .error fault s := by
  have hname : ∀ {representation}, unresolved? representation = some fault →
      Representation.resolve representation = .error fault := faultOf?_eq_some_iff.mp
  have hsource : ∀ {source}, firstFault? e source = some fault →
      render e source = .error fault := by
    intro source h
    have heq := render_eq e source
    rwa [h] at heq
  cases op with
  | create source default =>
      have hcreate : Renderings.create e source default = .error fault := by
        unfold Renderings.create
        rcases Option.or_eq_some_iff.mp h with h | ⟨hnone, h⟩
        · rw [hname h]
          rfl
        · obtain ⟨source, rfl, hfault⟩ := Option.bind_eq_some_iff.mp h
          obtain ⟨r, hr⟩ := faultOf?_eq_none_iff.mp hnone
          rw [hr]
          show Renderings.evaluate _ e source = _
          rw [Renderings.evaluate, hsource hfault]
          rfl
      simp only [run, hcreate]
      rfl
  | evaluate source => rw [run_evaluate, hsource h]
  | set representation code =>
      simp only [run, hname h]
      rfl
  | setDefault representation =>
      simp only [run, hname h]
      rfl
  | get representation =>
      simp only [run, hname h]
      rfl

/-- What an operation that says nothing of failure leaves: the codes that it writes next to the old
ones, and the default representation that it chooses or the old one. -/
theorem run_of_success {op : Operation} (h : op.fault? e = none) (s : Renderings) :
    ∃ answer s', op.run e s = .ok answer s' ∧
      (∀ r, s'.codes.get r = (op.code? e r).getD (s.codes.get r)) ∧
      s'.default = op.default?.getD s.default := by
  have hname : ∀ {representation}, unresolved? representation = none →
      ∃ r, Representation.resolve representation = .ok r ∧
        Representation.read? representation = some r := by
    intro representation h
    obtain ⟨r, hr⟩ := faultOf?_eq_none_iff.mp h
    exact ⟨r, hr, Representation.resolve_eq_ok_iff.mp hr⟩
  have hsource : ∀ {source}, firstFault? e source = none →
      ∃ codes, render e source = .ok codes ∧
        ∀ r (old : Text), codes.get r = (e.parse r source).toOption.getD old := by
    intro source h
    have heq := render_eq e source
    rw [h] at heq
    obtain ⟨codes, hcodes⟩ := heq
    refine ⟨codes, hcodes, ?_⟩
    intro r old
    rw [parse_of_render hcodes r]
    rfl
  cases op with
  | create source default =>
      obtain ⟨hdefault, hsource'⟩ := Option.or_eq_none_iff.mp h
      obtain ⟨r₀, hr₀, hread⟩ := hname hdefault
      cases source with
      | none =>
          refine ⟨none, { default := r₀ }, ?_, ?_, ?_⟩
          · simp only [run, Renderings.create, hr₀]
            rfl
          · intro r
            exact PerRepresentation.get_ofFn _ r
          · rw [default?, hread]
            rfl
      | some source =>
          obtain ⟨codes, hcodes, hget⟩ := hsource hsource'
          refine ⟨none, ⟨codes, r₀⟩, ?_, fun r => hget r _, ?_⟩
          · have hcreate : Renderings.create e (some source) default = .ok ⟨codes, r₀⟩ := by
              unfold Renderings.create
              rw [hr₀]
              show Renderings.evaluate _ e source = _
              rw [Renderings.evaluate, hcodes]
              rfl
            simp only [run, hcreate]
            rfl
          · rw [default?, hread]
            rfl
  | evaluate source =>
      obtain ⟨codes, hcodes, hget⟩ := hsource h
      refine ⟨some (codes.get s.default), { s with codes }, ?_, fun r => hget r _, rfl⟩
      rw [run_evaluate, hcodes]
  | set representation code =>
      obtain ⟨r₀, hr₀, hread⟩ := hname h
      refine ⟨none, { s with codes := s.codes.set r₀ code }, ?_, ?_, rfl⟩
      · simp only [run, hr₀]
        rfl
      · intro r
        rw [PerRepresentation.get_set, code?, hread]
        by_cases hr : r = r₀
        · simp [hr]
        · simp [hr, Ne.symm hr]
  | setDefault representation =>
      obtain ⟨r₀, hr₀, hread⟩ := hname h
      refine ⟨none, { s with default := r₀ }, ?_, fun r => rfl, ?_⟩
      · simp only [run, hr₀]
        rfl
      · rw [default?, hread]
        rfl
  | get representation =>
      obtain ⟨r₀, hr₀, -⟩ := hname h
      refine ⟨some (s.codes.get r₀), s, ?_, fun r => rfl, rfl⟩
      simp only [run, hr₀]
      rfl

end Operation

/-! ## Histories -/

/-- The operations of a history that succeed. -/
def log (e : Engine) (ops : List Operation) : List Operation :=
  ops.filter fun op => (op.fault? e).isNone

/-- The code that a log tells for a representation: the one that was written last, and the empty
text if none was. -/
def codeBehind (e : Engine) (ops : List Operation) (r : Representation) : Text :=
  (latest (Operation.code? e r) (log e ops)).getD []

/-- The default representation that a log tells: the one that was chosen last, and Unicode if none
was. -/
def defaultBehind (e : Engine) (ops : List Operation) : Representation :=
  (latest Operation.default? (log e ops)).getD .unicode

theorem ofHistory_concat (e : Engine) (ops : List Operation) (op : Operation) :
    ofHistory e (ops ++ [op]) = perform e (ofHistory e ops) op := by
  rw [ofHistory, List.foldl_append]
  rfl

/-- An operation that fails is not in the log. -/
theorem log_concat_of_fault {ops : List Operation} {op : Operation} {fault : Fault}
    (h : op.fault? e = some fault) : log e (ops ++ [op]) = log e ops := by
  simp [log, h]

theorem log_concat_of_success {ops : List Operation} {op : Operation} (h : op.fault? e = none) :
    log e (ops ++ [op]) = log e ops ++ [op] := by
  simp [log, h]

/-- The codes and the default are those of the log. -/
theorem ofHistory_eq (e : Engine) (ops : List Operation) :
    (∀ r, (ofHistory e ops).codes.get r = codeBehind e ops r) ∧
      (ofHistory e ops).default = defaultBehind e ops := by
  induction ops using List.reverseRecOn with
  | nil => exact ⟨fun r => PerRepresentation.get_ofFn _ r, rfl⟩
  | append_singleton ops op ih =>
      obtain ⟨hcodes, hdefault⟩ := ih
      rw [ofHistory_concat, perform]
      cases hfault : op.fault? e with
      | some fault =>
          rw [Operation.run_of_fault hfault]
          unfold codeBehind defaultBehind
          rw [log_concat_of_fault hfault]
          exact ⟨hcodes, hdefault⟩
      | none =>
          obtain ⟨answer, s', hrun, hcodes', hdefault'⟩ :=
            Operation.run_of_success hfault (ofHistory e ops)
          rw [hrun]
          unfold codeBehind defaultBehind
          rw [log_concat_of_success hfault, latest_concat]
          refine ⟨?_, ?_⟩
          · intro r
            rw [hcodes', hcodes, latest_concat, Option.getD_or]
            rfl
          · rw [hdefault', hdefault, Option.getD_or]
            rfl

/-- What renderings answer at the end of a history, and what the next operation does to them. -/
structure FollowsLog (e : Engine) (ops : List Operation) (s : Renderings) : Prop where
  /-- A name in any case, with any blanks around it, gives the code that was written last. -/
  get (r : Representation) (name : Text) : name.trim.lower = r.name →
    (Operation.get name).run e s = .ok (some (codeBehind e ops r)) s
  default : s.default = defaultBehind e ops
  value : s.value = codeBehind e ops (defaultBehind e ops)
  text : s.text = codeBehind e ops (defaultBehind e ops)
  /-- Evaluating replaces all codes and gives the new value. -/
  evaluate (source : Text) (out : Representation → Text) :
    (∀ r, e.parse r source = .ok (out r)) →
      (Operation.evaluate source).run e s =
        .ok (some (out (defaultBehind e ops))) { s with codes := .ofFn out }
  /-- Evaluating fails with the fault of the first representation that fails. -/
  evaluate_fails (source : Text) (before after : List Representation) (r : Representation)
    (fault : Fault) :
    [.plain, .unicode, .html, .latex] = before ++ r :: after →
      (∀ r' ∈ before, ∃ out, e.parse r' source = .ok out) → e.parse r source = .error fault →
        (Operation.evaluate source).run e s = .error fault s
  /-- A name that means no representation is refused. -/
  refuses (name : Text) : (∀ r : Representation, name.trim.lower ≠ r.name) →
    (Operation.get name).run e s = .error (.unknownRepresentation name) s ∧
      (Operation.setDefault name).run e s = .error (.unknownRepresentation name) s ∧
      ∀ code, (Operation.set name code).run e s = .error (.unknownRepresentation name) s
  /-- The operations of the log are those that succeed. -/
  succeeds (op : Operation) : op.fault? e = none →
    ∃ answer, op.run e s = .ok answer (ofHistory e (ops ++ [op]))
  /-- The operations that are not in the log fail and leave no trace. -/
  fails (op : Operation) (fault : Fault) : op.fault? e = some fault → op.run e s = .error fault s

/-- Whatever operations succeeded and failed, renderings hold in each representation the code that
was written last, and the default that was chosen last. An operation fails as a whole: it leaves the
codes and the default as they were. -/
theorem ofHistory_follows_log (e : Engine) (ops : List Operation) :
    FollowsLog e ops (ofHistory e ops) := by
  obtain ⟨hcodes, hdefault⟩ := ofHistory_eq e ops
  have hvalue : (ofHistory e ops).value = codeBehind e ops (defaultBehind e ops) := by
    rw [Renderings.value, hcodes, hdefault]
  refine ⟨?get, hdefault, hvalue, hvalue, ?evaluate, ?evaluate_fails, ?refuses, ?succeeds, ?fails⟩
  case get =>
    intro r name hname
    have hr := Representation.resolve_eq_ok_iff.mpr (Representation.read?_eq_some_iff.mpr hname)
    rw [Operation.run_get, Renderings.get, hr, ← hcodes]
    rfl
  case evaluate =>
    intro source out hout
    have hrender : render e source = .ok (.ofFn out) := by
      simp only [render, hout]
      rfl
    simp only [run_evaluate, hrender, PerRepresentation.get_ofFn, hdefault]
  case evaluate_fails =>
    intro source before after r fault hall hbefore hfault
    have houtcomes : outcomes e source = .error fault :=
      outcomes_eq_error_iff.mpr ⟨before, r, after, hall, hbefore, hfault⟩
    have hop : (Operation.evaluate source).fault? e = some fault :=
      firstFault?_eq_some_iff.mpr houtcomes
    exact Operation.run_of_fault hop _
  case refuses =>
    intro name hname
    have hread : Representation.read? name = none :=
      Option.eq_none_iff_forall_ne_some.mpr fun r h =>
        hname r (Representation.read?_eq_some_iff.mp h)
    have hrefused : unresolved? name = some (.unknownRepresentation name) :=
      faultOf?_eq_some_iff.mpr (Representation.resolve_eq_error_iff.mpr ⟨hread, rfl⟩)
    have hfails : ∀ op : Operation, op.fault? e = unresolved? name →
        op.run e (ofHistory e ops) = .error (.unknownRepresentation name) (ofHistory e ops) :=
      fun op hop => Operation.run_of_fault (hop.trans hrefused) _
    exact ⟨hfails (.get name) rfl, hfails (.setDefault name) rfl,
      fun code => hfails (.set name code) rfl⟩
  case succeeds =>
    intro op hop
    obtain ⟨answer, s', hrun, -⟩ := Operation.run_of_success hop (ofHistory e ops)
    refine ⟨answer, ?_⟩
    rw [ofHistory_concat, perform, hrun]
  case fails =>
    intro op fault hop
    exact Operation.run_of_fault hop _

/-- A history with an evaluation that fails halfway, after the plain rendering, and with a code that
is set by hand. The same evaluation fails again. -/
theorem ofHistory_follows_log_sample :
    let e := Engine.create true
    let ops : List Operation :=
      [.create none " Unicode", .evaluate "$sub(2)", .evaluate "$sub(foo)", .set "LaTeX " "x",
        .setDefault "pdf"]
    let s := ofHistory e ops
    (Operation.get " HTML").run e s = .ok (some "<sub>2</sub>") s ∧
      (Operation.get "latex").run e s = .ok (some "x") s ∧ s.value = "₂" ∧
      (Operation.setDefault "pdf").run e s = .error (.unknownRepresentation "pdf") s ∧
      ∃ fault, e.parse .unicode "$sub(foo)" = .error fault ∧
        (Operation.evaluate "$sub(foo)").run e s = .error fault s := by
  intro e ops s
  have h : FollowsLog e ops s := ofHistory_follows_log e ops
  have hhtml : codeBehind e ops .html = "<sub>2</sub>" := by decide +kernel
  have hlatex : codeBehind e ops .latex = "x" := by decide +kernel
  have hvalue : codeBehind e ops (defaultBehind e ops) = "₂" := by decide +kernel
  have hplain : ∀ r' ∈ [Representation.plain], ∃ out, e.parse r' "$sub(foo)" = .ok out := by
    rw [List.forall_mem_singleton]
    exact ⟨"_foo", by decide +kernel⟩
  have hunicode : ∃ fault, e.parse .unicode "$sub(foo)" = .error fault :=
    ⟨.parse ⟨.unknownKey "sub" ["foo"] "unicode encoding table 'sub' has no key 'f'",
      "$sub(foo)", 9⟩, by decide +kernel⟩
  have hpdf : ∀ r : Representation, Text.lower (Text.trim "pdf") ≠ r.name := by
    intro r
    cases r <;> decide +kernel
  obtain ⟨fault, hfault⟩ := hunicode
  refine ⟨?_, ?_, ?_, (h.refuses "pdf" hpdf).2.1, fault, hfault, ?_⟩
  · rw [h.get .html " HTML" (by decide +kernel), hhtml]
  · rw [h.get .latex "latex" (by decide +kernel), hlatex]
  · rw [h.value, hvalue]
  · exact h.evaluate_fails _ [.plain] [.html, .latex] .unicode fault rfl hplain hfault

end Sigil.Renderings
