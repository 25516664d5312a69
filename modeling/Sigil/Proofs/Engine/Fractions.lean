import Sigil.Proofs.Engine.Stock

/-!
# Fractions that are seen without a numerator

A fraction shows its slash, or what stands for it, whatever is above. Only Unicode leaves the
denominator out that is one, and the slash with it (`Unicode.exists_visible_fraction`). So two
representations accord as to fractions of blanks too, if one looks at the denominators in Unicode
(`Engine.IsStocked.accords`). Elsewhere they do not tell, since the texts of arguments differ.
-/

namespace Sigil

/-! ## Renderers -/

/-- The fault is that a table lacks a key. -/
def Fault.LacksKey : Fault → Prop
  | unknownKey .. => True
  | _ => False

/-- A computation that fails for want of a key alone has a result if no key is wanting. -/
theorem FailsOnly.exists_result {α : Type} {x : Except Fault α} (h : FailsOnly Fault.LacksKey x)
    (hkey : ∀ group key reason, x = .error (.unknownKey group key reason) → False) :
    ∃ a, x = .ok a := by
  cases x with
  | ok a => exact ⟨a, rfl⟩
  | error fault =>
      have hlacks := h fault rfl
      cases fault with
      | unknownKey group key reason => exact (hkey group key reason rfl).elim
      | _ => exact hlacks.elim

/-- A lookup in a built-in table fails for want of the key. -/
theorem Registry.HasTables.lookup_failsOnly {reg : Registry} {r : Representation}
    (h : reg.HasTables r) {id : Text} (hid : Backend.brings r id = true) (key : Text) :
    FailsOnly Fault.LacksKey (reg.lookup r id key) := by
  obtain ⟨d, hd, rfl, mapping, hmapping⟩ := Backend.brings_iff.mp hid
  rw [lookup_eq, h d hd mapping hmapping]
  dsimp only
  split
  · exact .error trivial
  · exact .ok _

/-- Unicode prints every fraction that is not over one, and something is to be seen of it. -/
theorem Unicode.exists_visible_fraction {reg : Registry} (htables : reg.HasTables .unicode)
    (peers : Representation → Peer) (numerator : Text) {denominator : Text}
    (hone : denominator ≠ "1") :
    ∃ out, fraction ⟨reg, .unicode, peers⟩ "frac" numerator denominator = .ok out ∧
      out.visibility = .visible := by
  let scope : Scope := ⟨reg, .unicode, peers⟩
  have hfails : ∀ id, Backend.brings .unicode id = true → ∀ key,
      FailsOnly Fault.LacksKey (scope.lookup id key) := fun _ hid => htables.lookup_failsOnly hid
  have hfailsEach : ∀ id, Backend.brings .unicode id = true → ∀ t,
      FailsOnly Fault.LacksKey (scope.lookupEach id t) := fun id hid t =>
    (FailsOnly.mapM (hfails id hid) _).bind fun _ => .ok _
  have hmath : reg.Shows .unicode "math" := htables.shows _ (by decide)
  have hfrac : reg.Shows .unicode "frac" := htables.shows _ (by decide)
  have hslash (t u : Text) : (t ++ "/" ++ u).visibility = .visible :=
    Text.visibility_append_left (Text.visibility_append_right t rfl) u
  simp only [fraction, if_neg hone]
  split
  · have hinfinity : reg.lookup .unicode "math" "inf" = .ok "∞" :=
      Registry.lookup_eq_ok_iff.mpr
        ⟨_, htables _ (List.mem_of_getElem? (i := 3) rfl) _ rfl, by decide +kernel⟩
    exact ⟨_, hinfinity, (hmath.lookup hinfinity).2⟩
  split
  -- a fraction without a character of its own has a slash, whether its parts can be moved or not
  · split
    · exact ⟨_, rfl, hslash _ _⟩
    · rename_i hbuilt
      obtain ⟨out, hout⟩ := FailsOnly.exists_result ((hfailsEach "sup" (by decide) _).bind fun _ =>
        (hfails "math" (by decide) _).bind fun _ =>
          (hfailsEach "sub" (by decide) _).bind fun _ => .ok _) hbuilt
      exact ⟨out, hout, visibility_built hmath hout⟩
  · rename_i hglyph
    obtain ⟨glyph, hglyph⟩ := (hfails "frac" (by decide) _).exists_result hglyph
    exact ⟨glyph, hglyph, (hfrac.lookup hglyph).2⟩

/-- All representations print every fraction, and something is to be seen of it. In Unicode that is
so if the fraction is not over one. -/
theorem Backend.exists_visible_fraction {reg : Registry} (htables : ∀ r, reg.HasTables r)
    (peers : Representation → Peer) (r : Representation) :
    ∃ d ∈ definitions r, d.name = "frac" ∧ d.arity = .exactly 2 ∧ ∀ numerator denominator : Text,
      (r = .unicode → denominator.trim ≠ "1") →
      ∃ out, d.render ⟨reg, r, peers⟩
        ⟨"frac", [numerator, denominator], [numerator, denominator]⟩ = .ok out ∧
        out.visibility = .visible := by
  cases r with
  | plain =>
      refine ⟨_, List.mem_of_getElem? (i := 1) rfl, rfl, rfl, fun _ _ _ => ⟨_, rfl, ?_⟩⟩
      exact Text.visibility_append_left (Text.visibility_append_right _ rfl) _
  | unicode =>
      refine ⟨_, List.mem_of_getElem? (i := 1) rfl, rfl, rfl, fun _ _ hone => ?_⟩
      exact Unicode.exists_visible_fraction (htables .unicode) peers _ (hone rfl)
  | html =>
      refine ⟨_, List.mem_of_getElem? (i := 1) rfl, rfl, rfl, fun _ _ _ => ⟨_, rfl, ?_⟩⟩
      exact Text.visibility_append_right _ rfl
  | latex =>
      refine ⟨_, List.mem_of_getElem? (i := 1) rfl, rfl, rfl, fun _ _ _ => ⟨_, rfl, ?_⟩⟩
      exact Text.visibility_append_left (Text.visibility_append_left rfl _) _

/-! ## Calls -/

/-- The call shows something or its group refuses it, as far as is seen in the representation: it is
not of a hollow group, its first argument is visible, or it is a fraction that Unicode does not print
over one. -/
def Representation.spares (r : Representation) (callee : Text) (keys : List Text) : Bool :=
  Target.spares hollowGroups callee keys ||
    r = .unicode && callee = "frac" && keys.tail.all fun key => key.trim ≠ "1"

/-- Targets that accord with respect to some calls do so with respect to more, if what they render
those to is alike. -/
theorem Target.Accords.widen {target target' : Target} {admits admits' : Text → List Text → Bool}
    (h : target.Accords target' admits)
    (hmore : ∀ source stop callee args args' rendered rendered',
      List.Forall₂ Argument.Alike args args' →
      admits callee (args.map Argument.key) = false → admits' callee (args.map Argument.key) = true →
      target.renderCall {} source stop callee args = .ok rendered →
      target'.renderCall {} source stop callee args' = .ok rendered' →
      rendered.visibility = rendered'.visibility) :
    target.Accords target' admits' := by
  intro source stop callee args args' halike
  rcases h source stop callee args args' halike with
    ⟨rendered, rendered', hrendered, hrendered', hvisibility⟩ | hfault
  · refine .inl ⟨rendered, rendered', hrendered, hrendered', ?_⟩
    intro hadmitted
    cases hadmits : admits callee (args.map Argument.key) with
    | true => exact hvisibility hadmits
    | false =>
        exact hmore source stop callee args args' rendered rendered' halike hadmits hadmitted
          hrendered hrendered'
  · exact .inr hfault

namespace Engine.IsStocked

variable {e : Engine} {names : List Text} {r r' : Representation}

/-- A call of the group of fractions shows something. In Unicode that is so if the fraction is not
over one. -/
theorem visibility_fraction (h : e.IsStocked names r) (htables : ∀ r, e.registry.HasTables r)
    {args : List Argument} (htexts : args.map Argument.text = args.map Argument.key)
    (hone : r = .unicode → ∀ key ∈ (args.map Argument.key).tail, key.trim ≠ "1") {source : Text}
    {stop : Nat} {rendered : Text}
    (hrendered : (e.target r).renderCall {} source stop "frac" args = .ok rendered) :
    rendered.visibility = .visible := by
  obtain ⟨d, hd, hname, harity, hvisible⟩ :=
    Backend.exists_visible_fraction htables e.peers r
  have hgroup : (e.backend r).groups.get? "frac" = some d.group := hname ▸ h.builtIn d hd
  have hknown : (e.target r).known "frac" = true := by
    show ((e.backend r).groups.get? "frac").isSome = true
    rw [hgroup]
    rfl
  by_cases hcount : args.length = 2
  · obtain ⟨a, b, rfl⟩ := List.length_eq_two.mp hcount
    simp only [List.map_cons, List.map_nil, List.tail_cons, List.forall_mem_singleton] at hone htexts
    obtain ⟨out, hout, hvisible⟩ := hvisible a.key b.key hone
    have hinvoke : (e.target r).invoke "frac" [a.key, b.key] [a.key, b.key] = .ok out := by
      rw [target, Backend.invoke_eq_render hgroup _ _ (by rw [Definition.group, harity]; rfl),
        h.representation]
      exact hout
    simp only [Target.renderCall, hknown, if_true, List.map_cons, List.map_nil, htexts, hinvoke,
      Except.ok.injEq] at hrendered
    exact hrendered ▸ hvisible
  · have hrefused : d.group.arity.accepts (args.map Argument.key).length = false := by
      rw [Definition.group, harity, List.length_map]
      exact beq_false_of_ne hcount
    obtain ⟨reason, hinvoke⟩ : ∃ reason, (e.target r).invoke "frac" (args.map Argument.key)
        (args.map Argument.text) = .error (.invalidArgument "frac" reason) :=
      Backend.invoke_eq_refusal hgroup e.registry e.peers hrefused _
    simp only [Target.renderCall, hknown, if_true, hinvoke, Target.giveUp, reduceCtorEq]
      at hrendered

/-- Two stocked representations accord. If one looks at the arguments in Unicode, that is so for
fractions of blanks too that are not over one. -/
theorem accords (h : e.IsStocked names r) (h' : e.IsStocked names r')
    (htables : ∀ r, e.registry.HasTables r) (hr : r = .unicode → r' ≠ .unicode) :
    (e.target r).Accords (e.target r') r.spares := by
  refine ((h.accords_bare htables).join (h'.accords_bare htables)
    (Target.spares_congr hollowGroups)).widen ?_
  intro source stop callee args args' rendered rendered' halike hhollow hspared hrendered hrendered'
  obtain ⟨htexts, htexts'⟩ := Argument.texts_of_alike halike
  simp only [Representation.spares, hhollow, Bool.false_or, Bool.and_eq_true, decide_eq_true_eq,
    List.all_eq_true] at hspared
  obtain ⟨⟨rfl, rfl⟩, hone⟩ := hspared
  rw [h.visibility_fraction htables htexts (fun _ => hone) hrendered,
    h'.visibility_fraction htables htexts' (fun hr' => absurd hr' (hr rfl)) hrendered']

end Engine.IsStocked

end Sigil
