import Sigil.Glossary
import Sigil.Proofs.Registry.Tables
import Sigil.Proofs.Results
import Sigil.Registry.History
import Sigil.Symbols.Physics
import Sigil.Symbols.StandardModel

/-!
# Groups of engines

What installing a group or a glossary does to an engine: it changes one backend, and the tables of
one representation under one name. What every such change keeps holds of every engine with
glossaries (`Engine.withGlossaries_induction`), and a property of groups that the built-in groups
and those of the glossaries have holds of all groups (`Engine.AllGroups.withGlossaries`).
-/

namespace Sigil

/-! ## Groups of a backend -/

namespace Backend

/-- All groups have a property, which may depend on the name that calls give them. -/
def AllGroups (P : Text → Group → Prop) (b : Backend) : Prop :=
  ∀ callee group, b.groups.get? callee = some group → P callee group

variable {P : Text → Group → Prop}

/-- Adding a group that has the property keeps it. -/
theorem AllGroups.define {b : Backend} (h : b.AllGroups P) {d : Definition}
    (hd : P d.name d.group) : (b.define d).AllGroups P := by
  intro callee group hgroup
  rw [Backend.define, OrderedMap.get?_insert] at hgroup
  split at hgroup
  · rename_i hcallee
    cases hgroup
    rw [hcallee]
    exact hd
  · exact h callee group hgroup

/-- Adding groups that have the property one after another keeps it. -/
theorem AllGroups.foldl_define {ds : List Definition} (hds : ∀ d ∈ ds, P d.name d.group)
    {b : Backend} (h : b.AllGroups P) : (ds.foldl Backend.define b).AllGroups P := by
  induction ds generalizing b with
  | nil => exact h
  | cons d ds ih =>
      rw [List.forall_mem_cons] at hds
      exact ih hds.2 (h.define hds.1)

/-- A property of all built-in groups. -/
theorem allGroups_standard {r : Representation} (h : ∀ d ∈ definitions r, P d.name d.group)
    (strict : Bool) : (standard r strict).AllGroups P :=
  AllGroups.foldl_define h fun _ _ hgroup => by cases hgroup

theorem hasGroup_iff {b : Backend} {callee : Text} :
    b.hasGroup callee = true ↔ ∃ group, b.groups.get? callee = some group := by
  rw [hasGroup, OrderedMap.contains, Option.isSome_iff_exists]

/-- A backend has the groups that it had before one was added, and that one. -/
theorem hasGroup_define {b : Backend} {d : Definition} {callee : Text} :
    (b.define d).hasGroup callee = true ↔ callee = d.name ∨ b.hasGroup callee = true := by
  simp only [hasGroup, define, OrderedMap.contains, OrderedMap.get?_insert]
  by_cases hcallee : callee = d.name <;> simp [hcallee]

/-- The built-in groups are there. -/
theorem hasGroup_standard {r : Representation} (strict : Bool) {d : Definition}
    (hd : d ∈ definitions r) : (standard r strict).hasGroup d.name = true := by
  have hfold : ∀ (ds : List Definition) (b : Backend),
      d ∈ ds ∨ b.hasGroup d.name = true → (ds.foldl define b).hasGroup d.name = true := by
    intro ds
    induction ds with
    | nil => exact fun b h => h.resolve_left List.not_mem_nil
    | cons d' ds ih =>
        intro b h
        refine ih (b.define d') ?_
        rw [hasGroup_define]
        rcases h with h | h
        · rcases List.mem_cons.mp h with rfl | h
          · exact .inr (.inl rfl)
          · exact .inl h
        · exact .inr (.inr h)
  exact hfold (definitions r) _ (.inl hd)

/-- Two backends render a call alike if they have the same group for it, and the group makes the same
of the call. -/
theorem invokeBy_congr {b b' : Backend} {answer answer' : Group → Invocation → Except Fault Text}
    {call : Invocation} (hrepresentation : b.representation = b'.representation)
    (hgroup : b.groups.get? call.group = b'.groups.get? call.group)
    (hanswer : ∀ group, b.groups.get? call.group = some group →
      answer group call = answer' group call) :
    b.invokeBy answer call = b'.invokeBy answer' call := by
  unfold invokeBy
  rw [← hgroup, ← hrepresentation]
  cases hfound : b.groups.get? call.group with
  | none => rfl
  | some group =>
      show (if group.arity.accepts call.keys.length then _ else _) = _
      rw [hanswer group hfound]

/-- A call with as many arguments as its group takes is rendered by the group. -/
theorem invoke_eq_render {b : Backend} {callee : Text} {group : Group}
    (hgroup : b.groups.get? callee = some group) (reg : Registry) (peers : Representation → Peer)
    {keys : List Text} (harity : group.arity.accepts keys.length = true) (texts : List Text) :
    (b.target reg peers).invoke callee keys texts =
      group.render ⟨reg, b.representation, peers⟩ ⟨callee, keys, texts⟩ := by
  show b.invokeBy _ ⟨callee, keys, texts⟩ = _
  simp only [invokeBy, hgroup]
  exact if_pos harity

/-- A call whose arguments do not suit the arity of its group is refused. -/
theorem invoke_eq_refusal {b : Backend} {callee : Text} {group : Group}
    (hgroup : b.groups.get? callee = some group) (reg : Registry) (peers : Representation → Peer)
    {keys : List Text} (harity : group.arity.accepts keys.length = false) (texts : List Text) :
    ∃ reason, (b.target reg peers).invoke callee keys texts =
      .error (.invalidArgument callee reason) := by
  refine ⟨b.representation.name ++ " renderer '" ++ callee ++ "' takes " ++ group.arity.text ++
    ", got " ++ Text.decimal keys.length, ?_⟩
  show b.invokeBy _ ⟨callee, keys, texts⟩ = _
  simp only [invokeBy, hgroup]
  exact if_neg (Bool.eq_false_iff.mp harity)

/-- What a call is rendered to is what its group makes of it. -/
theorem exists_render_of_invoke {b : Backend} {reg : Registry} {peers : Representation → Peer}
    {callee rendered : Text} {keys texts : List Text}
    (h : (b.target reg peers).invoke callee keys texts = .ok rendered) :
    ∃ group, b.groups.get? callee = some group ∧
      group.render ⟨reg, b.representation, peers⟩ ⟨callee, keys, texts⟩ = .ok rendered := by
  replace h : b.invokeBy _ ⟨callee, keys, texts⟩ = .ok rendered := h
  unfold invokeBy at h
  split at h
  · cases h
  · rename_i group hgroup
    split at h
    · exact ⟨group, hgroup, h⟩
    · cases h

/-- Output goes through the last pass of the backend. -/
theorem output_target (b : Backend) (reg : Registry) (peers : Representation → Peer)
    (fragments : List Fragment) :
    (b.target reg peers).output fragments =
      b.translate reg (Fragment.concat fragments) fragments :=
  rfl

end Backend

/-! ## Changes to an engine -/

namespace Engine

variable (e : Engine) (r r' : Representation) (d : Definition)

theorem backend_define_self : (e.define r d).backend r = (e.backend r).define d := by
  show (e.backends.set r _).get r = _
  rw [PerRepresentation.get_set, if_pos rfl]

theorem backend_define_of_ne (h : r' ≠ r) : (e.define r d).backend r' = e.backend r' := by
  show (e.backends.set r _).get r' = _
  rw [PerRepresentation.get_set, if_neg h]
  rfl

/-- What holds of all backends, and of the one that gets another group also behind that, holds of
all backends behind it. -/
theorem forall_backend_define {P : Representation → Backend → Prop} {e : Engine}
    {r : Representation} {d : Definition} (h : ∀ r, P r (e.backend r))
    (hdefine : P r ((e.backend r).define d)) (r' : Representation) :
    P r' ((e.define r d).backend r') := by
  by_cases hr : r' = r
  · subst hr
    rw [backend_define_self]
    exact hdefine
  · rw [backend_define_of_ne e r r' d hr]
    exact h r'

/-- The backends of a new engine are the standard ones. -/
theorem backend_create (strict : Bool) (reg : Registry) :
    (create strict reg).backend r = Backend.standard r strict :=
  PerRepresentation.get_ofFn _ r

/-- Installing a group leaves the tables alone that are under other names or of other
representations. -/
theorem table?_define_of_ne {id : Text} (h : ¬(r' = r ∧ id = d.name)) :
    (e.define r d).registry.table? r' id = e.registry.table? r' id :=
  d.table?_install e.registry h

/-- Adding a group changes no marks. -/
theorem isMark_define : (e.define r d).registry.isMark r' = e.registry.isMark r' := by
  funext t
  show ((d.install r e.registry).marks r').contains t = _
  rw [Definition.marks_install]
  rfl

end Engine

/-- The engine behind changes to its registry. -/
def Engine.change (e : Engine) (changes : List Registry.Change) : Engine :=
  { e with registry := e.registry.applyAll changes }

/-! ## Glossaries -/

namespace Glossary

/-- Installing a glossary in a representation that has a group of its name does nothing, and
otherwise adds its group with its codes. -/
theorem installIn_eq_ok {g : Glossary} {e e' : Engine} {r : Representation}
    (h : g.installIn e r = .ok e') :
    ((e.backend r).hasGroup g.name = true ∧ e' = e) ∨
      (e.backend r).hasGroup g.name = false ∧
        ∃ mapping, g.mapping (e.target r) = .ok mapping ∧
          e' = e.define r (g.definition mapping) := by
  unfold installIn at h
  split at h
  · rename_i hgroup
    cases h
    exact .inl ⟨hgroup, rfl⟩
  · rename_i hgroup
    obtain ⟨mapping, hmapping, hresult⟩ := bind_eq_ok_iff.mp h
    cases hresult
    exact .inr ⟨Bool.eq_false_iff.mpr hgroup, mapping, hmapping, rfl⟩

/-- What adding the group to each of the representations keeps holds of the engine behind the
installation, also where the installation fails. -/
theorem installAll_induction {P : Engine → Prop} {g : Glossary} {rs : List Representation}
    (hdefine : ∀ e, ∀ r ∈ rs, ∀ mapping, P e → (e.backend r).hasGroup g.name = false →
      g.mapping (e.target r) = .ok mapping → P (e.define r (g.definition mapping)))
    {e : Engine} (he : P e) : P (g.installAll e rs).1 := by
  induction rs generalizing e with
  | nil => exact he
  | cons r rs ih =>
      have hrest := fun e r hr => hdefine e r (List.mem_cons_of_mem _ hr)
      unfold installAll
      split
      · rename_i e' hinstall
        rcases installIn_eq_ok hinstall with ⟨-, rfl⟩ | ⟨hgroup, mapping, hmapping, rfl⟩
        · exact ih hrest he
        · exact ih hrest (hdefine e r (List.mem_cons_self ..) mapping he hgroup hmapping)
      · exact he

end Glossary

/-- The glossaries that come with the library. -/
def Symbols.glossaries : List Glossary := [physics, standardModel]

namespace Engine

/-- What adding groups of glossaries keeps holds of an engine with glossaries. -/
theorem withGlossaries_induction {P : Engine → Prop} {gs : List Glossary}
    (hdefine : ∀ g ∈ gs, ∀ e r mapping, P e → (e.backend r).hasGroup g.name = false →
      g.mapping (e.target r) = .ok mapping → P (e.define r (g.definition mapping)))
    {e : Engine} (he : P e) : P (e.withGlossaries gs) := by
  induction gs generalizing e with
  | nil => exact he
  | cons g gs ih =>
      rw [List.forall_mem_cons] at hdefine
      exact ih hdefine.2 (Glossary.installAll_induction (fun e r _ => hdefine.1 e r) he)

/-- All groups of all backends have a property. -/
def AllGroups (P : Representation → Text → Group → Prop) (e : Engine) : Prop :=
  ∀ r, (e.backend r).AllGroups (P r)

variable {P : Representation → Text → Group → Prop}

/-- A property of all built-in groups is one of all groups of a new engine. -/
theorem allGroups_create (h : ∀ r, ∀ d ∈ Backend.definitions r, P r d.name d.group) (strict : Bool)
    (reg : Registry) : (create strict reg).AllGroups P := by
  intro r
  rw [backend_create]
  exact Backend.allGroups_standard (h r) strict

/-- Adding a group that has the property keeps it. -/
theorem AllGroups.define {e : Engine} (h : e.AllGroups P) {r : Representation} {d : Definition}
    (hd : P r d.name d.group) : (e.define r d).AllGroups P :=
  forall_backend_define h ((h r).define hd)

/-- Glossaries whose groups have the property keep it. -/
theorem AllGroups.withGlossaries {gs : List Glossary} {e : Engine} (h : e.AllGroups P)
    (hgs : ∀ g ∈ gs, ∀ r mapping, P r g.name (g.definition mapping).group) :
    (e.withGlossaries gs).AllGroups P :=
  withGlossaries_induction (fun g hg _ r mapping he _ _ => he.define (hgs g hg r mapping)) h

/-- Every backend writes the representation that it stands for, and all are equally strict. -/
def Uniform (strict : Bool) (e : Engine) : Prop :=
  ∀ r, (e.backend r).representation = r ∧ (e.backend r).strict = strict

theorem uniform_create (strict : Bool) (reg : Registry) : (create strict reg).Uniform strict := by
  intro r
  cases r <;> exact ⟨rfl, rfl⟩

variable {strict : Bool} {e : Engine}

/-- So do the targets. -/
theorem Uniform.target (h : e.Uniform strict) (r : Representation) :
    (e.target r).representation = r ∧ (e.target r).strict = strict := h r

theorem Uniform.define (h : e.Uniform strict) (r : Representation) (d : Definition) :
    (e.define r d).Uniform strict :=
  forall_backend_define (P := fun r b => b.representation = r ∧ b.strict = strict) h (h r)

theorem Uniform.withGlossaries (h : e.Uniform strict) (gs : List Glossary) :
    (e.withGlossaries gs).Uniform strict :=
  withGlossaries_induction (fun _ _ _ r _ he _ _ => he.define r _) h

/-- An engine that a glossary was installed in is as uniform as it was. -/
theorem Uniform.of_install (h : e.Uniform strict) {g : Glossary} {e' : Engine}
    {fault : Option Fault} (hinstall : g.install e = (e', fault)) : e'.Uniform strict := by
  have hinstalled : (g.install e).1.Uniform strict :=
    Glossary.installAll_induction (fun _ r _ _ he _ _ => he.define r _) h
  rwa [hinstall] at hinstalled

end Engine

end Sigil
