import Sigil.Proofs.Engine.Groups
import Sigil.Proofs.Expression.Faults

/-!
# Faults of engines

Whatever happens to the tables and marks of an engine, it fails with parse faults alone, and each of
them says where in the source the expression was given up (`Engine.fault_isLocated`). A renderer of
a built-in group or of a glossary fails for want of a table or a key and for no other reason
(`Render.Closed`), and arguments that do not suit the arity of a group are refused before its
renderer sees them. No registry is mentioned: a renderer that finds no table refuses the call.
-/

namespace Sigil

/-! ## Renderers -/

/-- A lookup fails for want of the table or of the key. -/
theorem Registry.lookup_failsOnly (reg : Registry) (r : Representation) (id key : Text) :
    FailsOnly (fun fault => fault.isMissing = true) (reg.lookup r id key) := by
  rw [lookup_eq]
  split
  · exact .error rfl
  split
  · exact .error rfl
  · exact .ok _

/-- Lookups of single characters fail for want of the table or of a key. -/
theorem Scope.lookupEach_failsOnly (scope : Scope) (table text : Text) :
    FailsOnly (fun fault => fault.isMissing = true) (scope.lookupEach table text) :=
  (FailsOnly.mapM (fun key => scope.registry.lookup_failsOnly _ table key) _).bind fun _ => .ok _

/-- A call lacks one of its first arguments, as a key or as output text. -/
def Invocation.Lacks (call : Invocation) (count : Nat) : Prop :=
  call.keys.length < count ∨ call.texts.length < count

/-- A renderer of so many arguments fails for want of a table or a key, or of an argument. -/
def Render.Closed (render : Render) (count : Nat) : Prop :=
  ∀ scope call, FailsOnly
    (fun fault => fault.isMissing = true ∨ fault = .absentArgument ∧ call.Lacks count)
    (render scope call)

namespace Invocation

/-- An argument can be trimmed if there is one. -/
theorem trimmed_failsOnly {args : List Text} {i : Nat} {P : Fault → Prop}
    (h : args.length ≤ i → P .absentArgument) : FailsOnly P (trimmed args i) := by
  unfold trimmed
  split
  · exact .ok _
  · rename_i hnone
    exact .error (h (List.getElem?_eq_none_iff.mp hnone))

variable (call : Invocation) {i count : Nat}

/-- A key can be trimmed unless the call lacks it. -/
theorem trimmed_keys_failsOnly (h : i < count) : FailsOnly
    (fun fault => fault.isMissing = true ∨ fault = .absentArgument ∧ call.Lacks count)
    (trimmed call.keys i) :=
  trimmed_failsOnly fun hlength => .inr ⟨rfl, .inl (by omega)⟩

/-- So can an output text. -/
theorem trimmed_texts_failsOnly (h : i < count) : FailsOnly
    (fun fault => fault.isMissing = true ∨ fault = .absentArgument ∧ call.Lacks count)
    (trimmed call.texts i) :=
  trimmed_failsOnly fun hlength => .inr ⟨rfl, .inr (by omega)⟩

end Invocation

namespace Render

/-- What is done with the key of an argument fails for want of a table or a key alone. -/
theorem closed_ofKey {f : Scope → Text → Text → Except Fault Text}
    (hf : ∀ scope table key, FailsOnly (fun fault => fault.isMissing = true) (f scope table key)) :
    Render.Closed (.ofKey f) 1 := by
  intro scope call
  exact (call.trimmed_keys_failsOnly Nat.zero_lt_one).bind fun key fault h => .inl (hf _ _ _ fault h)

theorem closed_lookup : Render.Closed .lookup 1 :=
  closed_ofKey fun scope => scope.registry.lookup_failsOnly scope.representation

theorem closed_lookupEach : Render.Closed .lookupEach 1 := closed_ofKey Scope.lookupEach_failsOnly

theorem closed_enclose (front back : Text) : Render.Closed (.enclose front back) 1 :=
  fun _ _ => .ok _

end Render

theorem Plain.closed_renderMath : Render.Closed renderMath 1 := by
  refine Render.closed_ofKey fun scope table key fault h => ?_
  unfold mathSymbol at h
  split at h
  · cases h
  · exact scope.registry.lookup_failsOnly _ _ _ fault h

/-- What is written of two output texts fails for want of one of them alone. -/
theorem Render.closed_of_texts (f : Text → Text → Text) : Render.Closed
    (fun _ call => do return f (← call.trimmedText) (← call.trimmedSecondText)) 2 := by
  intro scope call
  exact (call.trimmed_texts_failsOnly Nat.zero_lt_two).bind fun _ =>
    (call.trimmed_texts_failsOnly Nat.one_lt_two).bind fun _ => .ok _

theorem Unicode.fraction_failsOnly (scope : Scope) (table numerator denominator : Text) :
    FailsOnly (fun fault => fault.isMissing = true) (fraction scope table numerator denominator) := by
  have hlookup := fun table key => scope.registry.lookup_failsOnly scope.representation table key
  simp only [fraction]
  split
  · exact .ok _
  split
  · exact hlookup "math" "inf"
  split
  -- a fraction without a character of its own is built from three lookups
  · split
    · exact .ok _
    · refine (scope.lookupEach_failsOnly _ _).bind fun _ => (hlookup _ _).bind fun _ => ?_
      exact (scope.lookupEach_failsOnly _ _).bind fun _ => .ok _
  · exact hlookup _ _

theorem Unicode.closed_renderFraction : Render.Closed renderFraction 2 := by
  intro scope call
  refine (call.trimmed_keys_failsOnly Nat.zero_lt_two).bind fun _ =>
    (call.trimmed_keys_failsOnly Nat.one_lt_two).bind fun _ fault h => ?_
  exact .inl (fraction_failsOnly _ _ _ _ fault h)

theorem Html.closed_renderReference : Render.Closed renderReference 1 :=
  Render.closed_ofKey fun scope _ _ => (scope.registry.lookup_failsOnly _ _ _).bind fun _ => .ok _

theorem Html.closed_renderEachReference : Render.Closed renderEachReference 1 :=
  Render.closed_ofKey fun scope _ _ =>
    (FailsOnly.mapM (scope.registry.lookup_failsOnly _ _) _).bind fun _ => .ok _

theorem Latex.closed_renderScript : Render.Closed renderScript 1 :=
  fun _ call => (call.trimmed_texts_failsOnly Nat.zero_lt_one).bind fun _ => .ok _

/-- A group takes as many arguments as its renderer works on, so that a call of it fails for want of
a table or a key alone. -/
def Group.Closed (group : Group) : Prop :=
  ∃ count, group.render.Closed count ∧ ∀ n, group.arity.accepts n = true → count ≤ n

theorem Group.closed_of_exactly {render : Render} {count : Nat} (h : render.Closed count)
    (description : Text) : Group.Closed ⟨render, description, .exactly count⟩ := by
  refine ⟨count, h, fun n hn => ?_⟩
  simp only [Arity.accepts, beq_iff_eq] at hn
  omega

/-- A call that a closed group accepts fails for want of a table or a key alone, if every argument
has a key and a text. -/
theorem Group.Closed.isMissing {group : Group} (h : group.Closed) {scope : Scope}
    {call : Invocation} {fault : Fault} (harity : group.arity.accepts call.keys.length = true)
    (htexts : call.texts.length = call.keys.length)
    (hfault : group.render scope call = .error fault) : fault.isMissing = true := by
  obtain ⟨count, hrender, hcount⟩ := h
  obtain hmissing | ⟨-, hlacks⟩ := hrender scope call fault hfault
  · exact hmissing
  · have hle := hcount _ harity
    rcases hlacks with hkeys | htexts' <;> omega

/-- The built-in groups are closed. -/
theorem Backend.closed_definitions (r : Representation) : ∀ d ∈ definitions r, d.group.Closed := by
  have hone : ∀ {d : Definition}, d.arity = .exactly 1 → d.render.Closed 1 → d.group.Closed := by
    rintro ⟨name, description, render, mapping, arity⟩ rfl h
    exact Group.closed_of_exactly h description
  have htwo : ∀ {d : Definition}, d.arity = .exactly 2 → d.render.Closed 2 → d.group.Closed := by
    rintro ⟨name, description, render, mapping, arity⟩ rfl h
    exact Group.closed_of_exactly h description
  have hlookup := Render.closed_lookup
  have heach := Render.closed_lookupEach
  have henclose := Render.closed_enclose
  cases r with
  | plain =>
      simp only [definitions, Plain.definitions, List.forall_mem_cons]
      exact ⟨hone rfl heach, htwo rfl (Render.closed_of_texts _), hone rfl hlookup,
        hone rfl Plain.closed_renderMath, hone rfl heach, hone rfl (henclose _ _),
        hone rfl (henclose _ _), List.forall_mem_nil _⟩
  | unicode =>
      simp only [definitions, Unicode.definitions, List.forall_mem_cons]
      exact ⟨hone rfl heach, htwo rfl Unicode.closed_renderFraction, hone rfl hlookup,
        hone rfl hlookup, hone rfl heach, hone rfl heach, hone rfl heach, List.forall_mem_nil _⟩
  | html =>
      simp only [definitions, Html.definitions, List.forall_mem_cons]
      exact ⟨hone rfl Html.closed_renderEachReference, htwo rfl (Render.closed_of_texts _),
        hone rfl hlookup, hone rfl Html.closed_renderReference,
        hone rfl Html.closed_renderEachReference, hone rfl (henclose _ _), hone rfl (henclose _ _),
        List.forall_mem_nil _⟩
  | latex =>
      simp only [definitions, Latex.definitions, List.forall_mem_cons]
      exact ⟨hone rfl (henclose _ _), htwo rfl fun _ _ => .ok _, hone rfl hlookup,
        hone rfl hlookup, hone rfl Latex.closed_renderScript, hone rfl (henclose _ _),
        hone rfl (henclose _ _), List.forall_mem_nil _⟩

/-! ## Engines -/

namespace Backend

/-- Closed groups make a closed target, whatever tables there are. -/
theorem AllGroups.closed {b : Backend} (h : b.AllGroups fun _ group => group.Closed)
    (reg : Registry) (peers : Representation → Peer) : (b.target reg peers).Closed := by
  constructor
  · intro callee keys texts fault htexts hfault
    replace hfault : b.invokeBy _ ⟨callee, keys, texts⟩ = .error fault := hfault
    unfold invokeBy at hfault
    split at hfault
    · cases hfault
      rfl
    rename_i group hgroup
    split at hfault
    · rename_i harity
      exact Fault.isRefusal_of_isMissing ((h callee group hgroup).isMissing harity htexts hfault)
    · cases hfault
      rfl
  · intro callee keys texts fault hfault
    replace hfault : b.invokeBy _ ⟨callee, keys, texts⟩ = .error (.parse fault) := hfault
    unfold invokeBy at hfault
    split at hfault
    · cases hfault
    rename_i group hgroup
    split at hfault
    · obtain ⟨count, hrender, -⟩ := h callee group hgroup
      obtain hmissing | ⟨hlacks, -⟩ := hrender _ _ _ hfault
      · cases hmissing
      · cases hlacks
    · cases hfault

end Backend

namespace Engine

/-- All groups of an engine with glossaries are closed. -/
theorem closed_withGlossaries (strict : Bool) (reg : Registry) (gs : List Glossary) :
    ((create strict reg).withGlossaries gs).AllGroups fun _ _ group => group.Closed := by
  refine (allGroups_create ?_ strict reg).withGlossaries ?_
  · intro r d hd
    exact Backend.closed_definitions r d hd
  · intro g _ r mapping
    exact Group.closed_of_exactly Render.closed_lookup g.description

/-- Whatever was installed, removed or set in the registry of an engine with glossaries, a source
that cannot be written out is given up at an offset within it, and a single call at an offset from
its start on. Leniently that is for a flaw of the source, or for arguments that a group cannot
take. -/
theorem fault_isLocated (strict : Bool) (reg : Registry) (gs : List Glossary)
    (changes : List Registry.Change) (r : Representation) (source : Text) (options : Options) :
    let engine := ((create strict reg).withGlossaries gs).change changes
    let strictness := options.strict.getD strict
    (∀ fault, engine.parse r source options = .error fault →
      fault.IsLocated strictness source 1) ∧
    ∀ start ≤ source.length, ∀ fault, engine.parseCall r source start options = .error fault →
      fault.IsLocated strictness source start := by
  intro engine strictness
  have hclosed : (engine.target r).Closed :=
    (closed_withGlossaries strict reg gs r).closed engine.registry engine.peers
  have hstrict : (engine.target r).strict = strict := by
    exact ((uniform_create strict reg).withGlossaries gs r).2
  refine ⟨?_, ?_⟩
  · intro fault hfault
    have hlocated := hclosed.parse_fault hfault
    rwa [hstrict] at hlocated
  · intro start hstart fault hfault
    have hlocated := hclosed.parseCall_fault hstart hfault
    rwa [hstrict] at hlocated

/-- Behind the removal of a table a strict call of its group is refused, and a call without
arguments is given up also leniently. -/
theorem fault_isLocated_sample :
    let engine := ((create true .empty).withGlossaries [Symbols.physics]).change
      [.uninstall .unicode "math"]
    engine.parse .html "a$math(+)" =
        .error (.parse ⟨.unknownGroup "math" ["+"] "no unicode table 'math'", "a$math(+)", 9⟩) ∧
      Fault.IsLocated
        (.parse ⟨.unknownGroup "math" ["+"] "no unicode table 'math'", "a$math(+)", 9⟩) true
        "a$math(+)" 1 ∧
      2 ≤ (Text.ofString "a$$phy()").length ∧
      engine.parseCall .latex "a$$phy()" 2 ⟨some false, id⟩ =
        .error (.parse ⟨.invalidArgument "latex renderer 'phy' takes 1 argument, got 0",
          "a$$phy()", 8⟩) ∧
      Fault.IsLocated
        (.parse ⟨.invalidArgument "latex renderer 'phy' takes 1 argument, got 0", "a$$phy()", 8⟩)
        false "a$$phy()" 2 := by
  intro engine
  have hsource : engine.parse .html "a$math(+)" =
      .error (.parse ⟨.unknownGroup "math" ["+"] "no unicode table 'math'", "a$math(+)", 9⟩) := by
    decide +kernel
  have hcall : engine.parseCall .latex "a$$phy()" 2 ⟨some false, id⟩ =
      .error (.parse ⟨.invalidArgument "latex renderer 'phy' takes 1 argument, got 0",
        "a$$phy()", 8⟩) := by
    decide +kernel
  have hstart : 2 ≤ (Text.ofString "a$$phy()").length := by decide
  have h := fault_isLocated true .empty [Symbols.physics] [.uninstall .unicode "math"]
  exact ⟨hsource, (h .html _ {}).1 _ hsource, hstart, hcall,
    (h .latex _ ⟨some false, id⟩).2 2 hstart _ hcall⟩

end Engine

end Sigil
