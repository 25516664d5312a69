import Sigil.Proofs.Expression.Acceptance
import Sigil.Proofs.Expression.Offsets

/-!
# Faults of evaluation

A target is closed if it answers every call with a rendering or with a refusal (`Target.Closed`).
Evaluation with a closed target fails with parse faults of the source alone. Each of them is at an
offset of the scan, and a lenient one is the flaw of the source or a call with arguments that its
group cannot take (`Target.Closed.run_fault`, `Target.Closed.runCall_fault`).
-/

namespace Sigil

/-- A call cannot be rendered for want of a group, a table or a key. -/
def Fault.isMissing : Fault → Bool
  | unknownGroup .. => true
  | unknownKey .. => true
  | _ => false

/-- A call cannot be rendered: something is missing, or its group cannot take its arguments. -/
def Fault.isRefusal (fault : Fault) : Bool := fault.isMissing || fault matches .invalidArgument ..

theorem Fault.isRefusal_of_isMissing {fault : Fault} (h : fault.isMissing = true) :
    fault.isRefusal = true := by
  simp [isRefusal, h]

/-! ## Where faults are -/

namespace Mode

/-- Between calls every offset is behind the unit that is read next. -/
theorem scan_text_offset_gt {here offset : Nat} {rest : Text}
    (h : offset ∈ (text.scan here rest).offsets) : here < offset := by
  cases rest with
  | nil => cases h
  | cons u rest =>
      -- no token that ends between calls carries an offset, and no flaw is found there
      obtain ⟨next, hnext, htoken⟩ : ∃ next, (text.read here u).2 = .ok next ∧
          ∀ token, (text.read here u).1 = some token → token.stop? = none := by
        simp only [read]
        split
        · exact ⟨_, rfl, by simp⟩
        split
        · exact ⟨_, rfl, by simp⟩
        · refine ⟨_, rfl, ?_⟩
          intro token htoken
          cases htoken
          rfl
      have hrest : offset ∈ (next.scan (here + 1) rest).offsets := by
        rw [scan_cons, hnext] at h
        cases hread : (text.read here u).1 with
        | none =>
            rw [hread] at h
            exact h
        | some token =>
            rw [hread] at h
            simp only [Scan.offsets_cons, htoken token hread, Option.toList_none,
              List.nil_append] at h
            exact h
      have hlow := ((next.scan_offsets (here + 1) rest).2 offset hrest).1
      omega

end Mode

/-- The offsets of a whole source are behind its first unit and within it. -/
theorem Scan.ofText_offset_bounds {source : Text} {offset : Nat}
    (h : offset ∈ (Scan.ofText source).offsets) : 1 ≤ offset ∧ offset ≤ source.length :=
  ⟨Mode.scan_text_offset_gt h, ((Scan.ofText_offsets source).2 offset h).2⟩

/-- The offsets of a source from a call on are behind the start of the call and within the
source. -/
theorem Scan.ofCall_offset_bounds {source : Text} {start offset : Nat}
    (hstart : start ≤ source.length) (h : offset ∈ (Scan.ofCall source start).offsets) :
    start ≤ offset ∧ offset ≤ source.length := by
  have hlength : (source.drop start).length = source.length - start := List.length_drop
  unfold Scan.ofCall at h
  split at h
  · have hoffset : offset = start := by simpa [Scan.offsets] using h
    omega
  rename_i u rest hdrop
  rw [hdrop, List.length_cons] at hlength
  split at h
  · have hbounds := (Mode.scan_offsets _ _ _).2 offset h
    omega
  · have hoffset : offset = start + 1 := by simpa [Scan.offsets] using h
    omega

namespace Target

/-- Calls are rendered or refused, if every argument has a key and a text. -/
structure Closed (target : Target) : Prop where
  refuses : ∀ name keys texts fault, texts.length = keys.length →
    target.invoke name keys texts = .error fault → fault.isRefusal = true
  neverParses : target.NeverParses

variable {target : Target} {manner : Manner} {source : Text}

/-! ## What faults are -/

/-- Why evaluation may be given up: for the flaw, for arguments that a group cannot take, or
strictly for something that is missing. -/
def Blames (flaw : Option (Flaw × Nat)) (strict : Bool) (e : ParseFault) : Prop :=
  (∃ f offset, flaw = some (f, offset) ∧ e.offset = offset ∧ e.cause = .flaw f) ∨
    e.cause.kind = .invalidArgument ∨ strict = true

/-- A refused call is given up as a parse fault of the source. -/
theorem Closed.renderCall_fault (h : target.Closed) (flaw : Option (Flaw × Nat)) {stop : Nat}
    {callee : Text} {args : List Argument} {fault : Fault}
    (hfault : target.renderCall manner source stop callee args = .error fault) :
    ∃ e : ParseFault, fault = .parse e ∧ e.source = source ∧ Blames flaw manner.strict e := by
  rcases renderCall_eq_error hfault with
    ⟨cause, rfl, -, hcause⟩ | ⟨hinvoke, hgroup, hkey, hargument⟩
  · exact ⟨_, rfl, rfl, .inr hcause⟩
  -- a fault that is passed on is no refusal
  · have hrefusal := h.refuses _ _ _ _ (by simp) hinvoke
    cases fault with
    | unknownGroup group reason => exact absurd rfl (hgroup group reason)
    | unknownKey group key reason => exact absurd rfl (hkey group key reason)
    | invalidArgument group reason => exact absurd rfl (hargument group reason)
    | _ => cases hrefusal

/-- A step fails with a parse fault of the source. -/
theorem Closed.step_fault (h : target.Closed) (flaw : Option (Flaw × Nat)) {p : Progress}
    {token : Token} {fault : Fault} (hfault : target.step manner source p token = .error fault) :
    ∃ e : ParseFault, fault = .parse e ∧ e.source = source ∧ Blames flaw manner.strict e := by
  cases rejects_of_step hfault with
  | call _ _ _ hstrict => exact ⟨_, rfl, rfl, .inr (.inr hstrict)⟩
  | close _ _ _ _ hfault => exact h.renderCall_fault flaw hfault

/-- A run fails with a parse fault of the source at one of the offsets of its scan. -/
theorem Closed.run_fault (h : target.Closed) {s : Scan} {p : Progress} {fault : Fault}
    (hfault : target.run manner source s p = .error fault) :
    ∃ e : ParseFault, fault = .parse e ∧ e.source = source ∧
      (∃ offset ∈ s.offsets, e.offset = offset) ∧ Blames s.flaw manner.strict e := by
  obtain ⟨e, rfl, hsource, hblames⟩ : ∃ e : ParseFault, fault = .parse e ∧ e.source = source ∧
      Blames s.flaw manner.strict e := by
    obtain ⟨tokens, flaw⟩ := s
    induction tokens generalizing p with
    | nil =>
        cases flaw with
        | none => cases hfault
        | some flaw =>
            cases hfault
            exact ⟨_, rfl, rfl, .inl ⟨flaw.1, flaw.2, rfl, rfl, rfl⟩⟩
    | cons token rest ih =>
        rw [run_mk_cons] at hfault
        rcases bind_eq_error_iff.mp hfault with hstep | ⟨p', -, hrest⟩
        · exact h.step_fault flaw hstep
        · exact ih hrest
  exact ⟨e, rfl, hsource, h.neverParses.run_fault_offset hfault, hblames⟩

/-- Running up to the end of a call fails with a parse fault of the source at one of the offsets of
the scan. -/
theorem Closed.runCall_fault (h : target.Closed) {tokens : List Token}
    {flaw : Option (Flaw × Nat)} {p : Progress} {fault : Fault}
    (hfault : target.runCall manner source flaw p tokens = .error fault) :
    ∃ e : ParseFault, fault = .parse e ∧ e.source = source ∧
      (∃ offset ∈ (⟨tokens, flaw⟩ : Scan).offsets, e.offset = offset) ∧
      Blames flaw manner.strict e := by
  obtain ⟨e, rfl, hsource, hblames⟩ : ∃ e : ParseFault, fault = .parse e ∧ e.source = source ∧
      Blames flaw manner.strict e := by
    induction tokens generalizing p with
    | nil =>
        cases flaw with
        | none => cases hfault
        | some flaw =>
            cases hfault
            exact ⟨_, rfl, rfl, .inl ⟨flaw.1, flaw.2, rfl, rfl, rfl⟩⟩
    | cons token rest ih =>
        rw [runCall_cons] at hfault
        rcases bind_eq_error_iff.mp hfault with hstep | ⟨p', -, hrest⟩
        · exact h.step_fault flaw hstep
        · cases hdone : p'.completed? token with
          | some result =>
              rw [hdone] at hrest
              cases hrest
          | none =>
              rw [hdone] at hrest
              exact ih hrest
  exact ⟨e, rfl, hsource, h.neverParses.runCall_fault_offset hfault, hblames⟩

end Target

/-- The fault is a parse fault of the source at an offset from `first` up to the end of the source.
A lenient one is a flaw, or is about arguments that a group cannot take. -/
def Fault.IsLocated (fault : Fault) (strict : Bool) (source : Text) (first : Nat) : Prop :=
  ∃ e : ParseFault, fault = .parse e ∧ e.source = source ∧
    first ≤ e.offset ∧ e.offset ≤ source.length ∧
    (strict = false → e.cause.kind = .malformed ∨ e.cause.kind = .invalidArgument)

namespace Target

variable {target : Target} {source : Text} {options : Options} {fault : Fault}

/-- What a fault blames says its kind. -/
theorem Blames.kind {flaw : Option (Flaw × Nat)} {e : ParseFault} (h : Blames flaw false e) :
    e.cause.kind = .malformed ∨ e.cause.kind = .invalidArgument := by
  rcases h with ⟨f, -, -, -, hcause⟩ | hkind | hstrict
  · left
    rw [hcause]
    rfl
  · exact .inr hkind
  · cases hstrict

/-- A closed target gives a source up within it. -/
theorem Closed.parse_fault (h : target.Closed)
    (hfault : target.parse source options = .error fault) :
    fault.IsLocated (options.strict.getD target.strict) source 1 := by
  have heval := eq_error_of_map hfault
  rw [evaluate_eq_run] at heval
  have hrun := eq_error_of_map heval
  obtain ⟨e, rfl, hsource, ⟨offset, hmem, hoffset⟩, hblames⟩ := h.run_fault hrun
  obtain ⟨hlow, hhigh⟩ := Scan.ofText_offset_bounds hmem
  refine ⟨e, rfl, hsource, by omega, by omega, ?_⟩
  intro hstrict
  rw [show (options.manner target).strict = false from hstrict] at hblames
  exact hblames.kind

/-- A closed target gives a call up behind its start and within the source. -/
theorem Closed.parseCall_fault (h : target.Closed) {start : Nat} (hstart : start ≤ source.length)
    (hfault : target.parseCall source start options = .error fault) :
    fault.IsLocated (options.strict.getD target.strict) source start := by
  have hrun : target.evaluateCall (options.manner target) source start = .error fault :=
    eq_error_of_map hfault
  obtain ⟨e, rfl, hsource, ⟨offset, hmem, hoffset⟩, hblames⟩ := h.runCall_fault hrun
  obtain ⟨hlow, hhigh⟩ := Scan.ofCall_offset_bounds hstart hmem
  refine ⟨e, rfl, hsource, by omega, by omega, ?_⟩
  intro hstrict
  rw [show (options.manner target).strict = false from hstrict] at hblames
  exact hblames.kind

/-- A run that comes to its end found no flaw there. -/
theorem flaw_eq_none_of_run {manner : Manner} {s : Scan} {p p' : Progress}
    (h : target.run manner source s p = .ok p') : s.flaw = none := by
  obtain ⟨_, -, hflaw⟩ := bind_eq_ok_iff.mp h
  cases hs : s.flaw with
  | none => rfl
  | some flaw =>
      rw [hs] at hflaw
      cases hflaw

/-- Only expressions are written out, whatever the target. -/
theorem isExpression_of_parse {out : Text} (h : target.parse source options = .ok out) :
    Grammar.IsExpression source := by
  obtain ⟨fragments, heval, -⟩ := bind_eq_ok_iff.mp h
  rw [evaluate_eq_run] at heval
  obtain ⟨p, hrun, -⟩ := bind_eq_ok_iff.mp heval
  exact (Scan.ofText_flaw_eq_none_iff source).mp (flaw_eq_none_of_run hrun)

/-- Leniently a closed target gives an expression up for the arguments of a call alone. -/
theorem Closed.parse_fault_of_isExpression (h : target.Closed)
    (hsource : Grammar.IsExpression source) (hlenient : (options.manner target).strict = false)
    (hfault : target.parse source options = .error fault) :
    ∃ e : ParseFault, fault = .parse e ∧ e.cause.kind = .invalidArgument := by
  have heval := eq_error_of_map hfault
  rw [evaluate_eq_run] at heval
  obtain ⟨e, rfl, -, -, hblames⟩ := h.run_fault (eq_error_of_map heval)
  rw [(Scan.ofText_flaw_eq_none_iff source).mpr hsource, hlenient] at hblames
  rcases hblames with ⟨_, _, hflaw, -⟩ | hkind | hstrict
  · cases hflaw
  · exact ⟨e, rfl, hkind⟩
  · cases hstrict

end Target

end Sigil
