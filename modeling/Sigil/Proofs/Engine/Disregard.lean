import Mathlib.Data.List.Forall2
import Sigil.Proofs.Engine.Installation
import Sigil.Proofs.Expression.Callees
import Sigil.Proofs.Registry.History

/-!
# What does not depend on a group

A renderer disregards a name if it gives the same results whatever is registered and installed under
the name, however it may ask for that. All built-in renderers disregard all names but those of the
tables that fractions are built from (`Backend.disregards_definitions`). Two engines that differ in
the group of a name alone, which all other groups disregard, show renderers the same but for that
group (`Engine.AgreesOff.peersWithin`) and write alike what does not call the name
(`Engine.AgreesOff.target_agreesOn`), and go on doing so when a glossary is installed in both
(`Engine.AgreesOff.installAll`).
-/

namespace Sigil

variable {name : Text}

/-! ## What renderers are shown -/

/-- Two groups make the same of all calls but those of a name. -/
structure Registration.AgreesOff (name : Text) (g g' : Registration) : Prop where
  description : g.description = g'.description
  arity : g.arity = g'.arity
  render : ∀ callee, callee ≠ name → ∀ keys texts,
    g.render ⟨callee, keys, texts⟩ = g'.render ⟨callee, keys, texts⟩

/-- Two backends show renderers the same groups but for that of a name, and mean the same by all
calls but those of the name. -/
structure Peer.AgreesOff (name : Text) (p p' : Peer) : Prop where
  target : p.target.AgreesOn (· ≠ name) p'.target
  groups : List.Forall₂ (fun entry entry' => entry.1 = entry'.1 ∧ entry.2.AgreesOff name entry'.2)
    (p.groups.filter (·.1 ≠ name)) (p'.groups.filter (·.1 ≠ name))

/-- Renderers work with the same but for what is registered and installed under a name. -/
structure Scope.AgreesOff (name : Text) (scope scope' : Scope) : Prop where
  registry : scope.registry.AgreesOff name scope'.registry
  representations : scope.registry.representations = scope'.registry.representations
  representation : scope.representation = scope'.representation
  peers : ∀ r, (scope.peers r).AgreesOff name (scope'.peers r)

/-- A renderer gives all calls but those of a name the same results, whatever is registered and
installed under the name. -/
def Render.Disregards (render : Render) (name : Text) : Prop :=
  ∀ scope scope' : Scope, scope.AgreesOff name scope' → ∀ callee, callee ≠ name → ∀ keys texts,
    render scope ⟨callee, keys, texts⟩ = render scope' ⟨callee, keys, texts⟩

namespace Render

/-- A renderer that asks no backends, and for calls of other groups ignores the tables under a name,
disregards the name. -/
theorem disregards_of_ignores {render : Render}
    (h : ∀ callee, callee ≠ name → render.Ignores callee name) : render.Disregards name := by
  rintro ⟨reg, r, peers⟩ ⟨reg', r', peers'⟩ hscope callee hcallee keys texts
  obtain rfl : r = r' := hscope.representation
  exact h callee hcallee hscope.registry r peers peers' keys texts

/-- Lookups in the table of the name that calls give disregard all other names. -/
theorem disregards_lookup (name : Text) : Disregards lookup name := by
  rintro ⟨reg, r, peers⟩ ⟨reg', r', peers'⟩ hscope callee hcallee keys texts
  obtain rfl : r = r' := hscope.representation
  exact bind_congr (congrFun (Registry.lookup_congr (hscope.registry.table? r callee hcallee)))

end Render

namespace Backend

/-- The built-in renderers disregard all names but those of the tables that fractions are built
from. -/
theorem disregards_definitions (r : Representation) (hname : name ∉ Unicode.borrowedTables) :
    ∀ d ∈ definitions r, d.render.Disregards name := by
  intro d hd
  refine Render.disregards_of_ignores fun callee hcallee => ?_
  exact local_definitions r d hd callee name hcallee hname

/-- Two backends with the same groups but for that of a name show renderers the same but for that
group, if the others make the same of all calls but those of the name. -/
theorem peerBy_agreesOff {b b' : Backend} {reg reg' : Registry}
    {answer answer' : Group → Invocation → Except Fault Text}
    (hrepresentation : b.representation = b'.representation) (hstrict : b.strict = b'.strict)
    (hmarks : reg.isMark .latex = reg'.isMark .latex)
    (hgroups : b.groups.erase name = b'.groups.erase name)
    (hanswer : b.AllGroups fun callee group => callee ≠ name →
      ∀ callee', callee' ≠ name → ∀ keys texts,
        answer group ⟨callee', keys, texts⟩ = answer' group ⟨callee', keys, texts⟩) :
    (b.peerBy reg answer).AgreesOff name (b'.peerBy reg' answer') := by
  have hget : ∀ callee, callee ≠ name → b.groups.get? callee = b'.groups.get? callee :=
    fun _ => OrderedMap.get?_of_erase_eq hgroups
  refine ⟨⟨hrepresentation, hstrict, ?_, ?_, ?_⟩, ?_⟩
  · intro callee hcallee
    show (b.groups.get? callee).isSome = (b'.groups.get? callee).isSome
    rw [hget callee hcallee]
  · intro callee hcallee
    funext keys texts
    refine invokeBy_congr hrepresentation (hget callee hcallee) fun group hgroup => ?_
    exact hanswer callee group hgroup hcallee callee hcallee keys texts
  · funext rendered fragments
    show b.translate reg rendered fragments = b'.translate reg' rendered fragments
    rw [translate, translate, hrepresentation, hmarks]
  · have hentries : ∀ (b : Backend) (reg : Registry) (answer : Group → Invocation →
        Except Fault Text), (b.peerBy reg answer).groups.filter (·.1 ≠ name) =
          (b.groups.erase name).entries.map fun entry =>
            (entry.1, ⟨entry.2.description, entry.2.arity, answer entry.2⟩) :=
      fun _ _ _ => List.filter_map
    rw [hentries, hentries, ← hgroups, List.forall₂_map_left_iff, List.forall₂_map_right_iff,
      List.forall₂_same]
    rintro ⟨callee, group⟩ hentry
    obtain ⟨hentry, hcallee⟩ := List.mem_filter.mp hentry
    have hgroup := OrderedMap.mem_entries_iff.mp hentry
    exact ⟨rfl, rfl, rfl, hanswer callee group hgroup (of_decide_eq_true hcallee)⟩

end Backend

/-! ## Complete registries -/

namespace Engine

/-- The registry knows all representations, so that no table is the first of its representation. -/
def IsComplete (e : Engine) : Prop := ∀ r, r ∈ e.registry.representations

/-- The registry of a new engine knows all representations, since each of them has a table. -/
theorem isComplete_create (strict : Bool) (reg : Registry) : (create strict reg).IsComplete := by
  intro r
  have hbrings : Backend.brings r "greek" = true := by cases r <;> decide
  obtain ⟨d, hd, -, mapping, hmapping⟩ := Backend.brings_iff.mp hbrings
  have htable := hasTables_create strict reg r d hd mapping hmapping
  rw [Registry.mem_representations_iff, ← Bool.not_eq_false]
  intro hmissing
  rw [Registry.table?_of_not_mentioned hmissing] at htable
  cases htable

namespace IsComplete

variable {e : Engine}

/-- What a registry knows of representations does not depend on the rest of the engine. -/
theorem congr {e' : Engine} (h : e.IsComplete)
    (heq : e'.registry.representations = e.registry.representations) : e'.IsComplete :=
  fun r => heq ▸ h r

theorem representations_define (h : e.IsComplete) (r : Representation) (d : Definition) :
    (e.define r d).registry.representations = e.registry.representations :=
  d.representations_install (h r)

/-- Adding a group keeps the registry complete. -/
theorem define (h : e.IsComplete) (r : Representation) (d : Definition) : (e.define r d).IsComplete :=
  h.congr (h.representations_define r d)

/-- Adding groups of glossaries keeps the registry complete. -/
theorem withGlossaries (h : e.IsComplete) (gs : List Glossary) : (e.withGlossaries gs).IsComplete :=
  withGlossaries_induction (P := IsComplete) (fun _ _ _ r _ he _ _ => he.define r _) h

/-- Changes keep the registry complete. -/
theorem change (h : e.IsComplete) (changes : List Registry.Change) : (e.change changes).IsComplete :=
  fun r => Registry.mem_representations_applyAll (h r) changes

end IsComplete

end Engine

/-! ## Engines -/

/-- Two engines differ in the group of a name alone, and in the tables under that name. All other
groups disregard the name. -/
structure Engine.AgreesOff (name : Text) (e e' : Engine) : Prop where
  representation : ∀ r, (e.backend r).representation = (e'.backend r).representation
  strict : ∀ r, (e.backend r).strict = (e'.backend r).strict
  groups : ∀ r, (e.backend r).groups.erase name = (e'.backend r).groups.erase name
  registry : e.registry.AgreesOff name e'.registry
  representations : e.registry.representations = e'.registry.representations
  complete : e.IsComplete
  stack : e.stack = e'.stack
  disregards : e.AllGroups fun _ callee group => callee ≠ name → group.render.Disregards name

/-- The expressions of a glossary call the group of a name. -/
def Glossary.Calls (g : Glossary) (name : Text) : Prop :=
  ∃ entry ∈ g.expressions.entries, name ∈ entry.2.callees

instance (g : Glossary) (name : Text) : Decidable (g.Calls name) :=
  inferInstanceAs (Decidable (∃ entry ∈ g.expressions.entries, name ∈ entry.2.callees))

namespace Engine.AgreesOff

variable {e e' : Engine}

/-- An engine whose other groups disregard the name differs in nothing from itself. -/
theorem refl (hcomplete : e.IsComplete)
    (h : e.AllGroups fun _ callee group => callee ≠ name → group.render.Disregards name) :
    e.AgreesOff name e :=
  ⟨fun _ => rfl, fun _ => rfl, fun _ => rfl, .refl _, rfl, hcomplete, rfl, h⟩

/-- The engines show renderers the same but for the group of the name, however deeply these ask one
another. -/
theorem peersWithin (h : e.AgreesOff name e') (depth : Nat) (r : Representation) :
    (e.peersWithin depth r).AgreesOff name (e'.peersWithin depth r) := by
  induction depth generalizing r with
  | zero =>
      exact Backend.peerBy_agreesOff (h.representation r) (h.strict r) (h.registry.isMark .latex)
        (h.groups r) fun _ _ _ _ _ _ _ _ => rfl
  | succ depth ih =>
      refine Backend.peerBy_agreesOff (h.representation r) (h.strict r) (h.registry.isMark .latex)
        (h.groups r) ?_
      intro callee group hgroup hcallee
      exact h.disregards r callee group hgroup hcallee _ _
        ⟨h.registry, h.representations, h.representation r, ih⟩

/-- The engines write alike what does not call the name. -/
theorem target_agreesOn (h : e.AgreesOff name e') (r : Representation) :
    (e.target r).AgreesOn (· ≠ name) (e'.target r) := by
  have hpeers := h.peersWithin (e.stack + 1) r
  -- a target is what is shown to renderers at one level more than the stack has room for
  have htarget : e'.target r = (e'.peersWithin (e.stack + 1) r).target := by
    rw [h.stack]
    rfl
  rw [htarget]
  exact hpeers.target

/-- Engines that agree off a name with the same one agree with each other. -/
theorem join {e₁ e₂ : Engine} (h : e.AgreesOff name e₁) (h' : e.AgreesOff name e₂) :
    e₁.AgreesOff name e₂ := by
  refine ⟨fun r => (h.representation r).symm.trans (h'.representation r),
    fun r => (h.strict r).symm.trans (h'.strict r),
    fun r => (h.groups r).symm.trans (h'.groups r), h.registry.symm.trans h'.registry,
    h.representations.symm.trans h'.representations, h.complete.congr h.representations.symm,
    h.stack.symm.trans h'.stack, ?_⟩
  intro r callee group hgroup hcallee
  rw [← OrderedMap.get?_of_erase_eq (h.groups r) hcallee] at hgroup
  exact h.disregards r callee group hgroup hcallee

/-- Engines that agree off two names agree on all calls, since every call is off one of the two. -/
theorem target_agreesOn_all {name' : Text} (h : e.AgreesOff name e') (h' : e.AgreesOff name' e')
    (hne : name ≠ name') (r : Representation) :
    (e.target r).AgreesOn (fun _ => True) (e'.target r) := by
  refine (h.target_agreesOn r).union (h'.target_agreesOn r) ?_
  intro callee
  by_cases hcallee : callee = name
  · exact .inr (hcallee ▸ hne)
  · exact .inl hcallee

/-- Adding the group of the name to one of the engines changes nothing else. -/
theorem define_right (h : e.AgreesOff name e') (r : Representation) {d : Definition}
    (hd : d.name = name) : e.AgreesOff name (e'.define r d) := by
  have hcomplete : e'.IsComplete := h.complete.congr h.representations.symm
  refine ⟨?_, ?_, ?_, ?_, ?_, h.complete, h.stack, h.disregards⟩
  · exact forall_backend_define (P := fun r b => (e.backend r).representation = b.representation)
      h.representation (h.representation r)
  · exact forall_backend_define (P := fun r b => (e.backend r).strict = b.strict) h.strict
      (h.strict r)
  · refine forall_backend_define (P := fun r b => (e.backend r).groups.erase name =
      b.groups.erase name) h.groups ?_
    rw [Backend.define, OrderedMap.erase_insert, if_pos hd]
    exact h.groups r
  · exact h.registry.trans (hd ▸ d.agreesOff_install r e'.registry)
  · exact h.representations.trans (hcomplete.representations_define r d).symm

/-- Adding the same group to both engines keeps them in agreement, if it disregards the name. -/
theorem define (h : e.AgreesOff name e') (r : Representation) {d : Definition}
    (hd : d.name ≠ name → d.render.Disregards name) :
    (e.define r d).AgreesOff name (e'.define r d) := by
  have hbackend : ∀ r', ((e.define r d).backend r').representation =
        ((e'.define r d).backend r').representation ∧
      ((e.define r d).backend r').strict = ((e'.define r d).backend r').strict ∧
      ((e.define r d).backend r').groups.erase name =
        ((e'.define r d).backend r').groups.erase name := by
    intro r'
    by_cases hr : r' = r
    · subst hr
      rw [backend_define_self, backend_define_self]
      exact ⟨h.representation r', h.strict r',
        OrderedMap.erase_insert_congr (h.groups r') d.name d.group⟩
    · rw [backend_define_of_ne e r r' d hr, backend_define_of_ne e' r r' d hr]
      exact ⟨h.representation r', h.strict r', h.groups r'⟩
  have hcomplete : e'.IsComplete := h.complete.congr h.representations.symm
  have hmentions : (e.define r d).registry.representations =
      (e'.define r d).registry.representations := by
    rw [h.complete.representations_define, hcomplete.representations_define, h.representations]
  exact ⟨fun r' => (hbackend r').1, fun r' => (hbackend r').2.1, fun r' => (hbackend r').2.2,
    d.agreesOff_install_both h.registry r, hmentions, h.complete.define r d, h.stack,
    h.disregards.define hd⟩

/-- The codes of a glossary that does not call the name are the same in both engines. -/
theorem mapping_eq (h : e.AgreesOff name e') {g : Glossary} (hcalls : ¬g.Calls name)
    (r : Representation) :
    g.mapping (e.target r) = g.mapping (e'.target r) := by
  have hcode : ∀ key expression, (key, expression) ∈ g.expressions.entries →
      g.code (e.target r) key expression = g.code (e'.target r) key expression := by
    intro key expression hentry
    have hparse : (e.target r).parse expression { strict := some false } =
        (e'.target r).parse expression { strict := some false } := by
      refine (h.target_agreesOn r).parse expression _ ?_
      rintro callee hcallee rfl
      exact hcalls ⟨(key, expression), hentry, hcallee⟩
    unfold Glossary.code
    rw [← (h.target_agreesOn r).representation]
    split
    · rfl
    · exact hparse
  unfold Glossary.mapping
  rw [mapM_congr ?_]
  rintro ⟨key, expression⟩ hentry
  show (do return (key, ← g.code (e.target r) key expression)) = _
  rw [hcode key expression hentry]

variable {g : Glossary}

/-- Installing a glossary that does not call the name in one representation fails for the same
reason in both engines, or keeps them in agreement. -/
theorem installIn (h : e.AgreesOff name e') (hname : g.name ≠ name) (hcalls : ¬g.Calls name)
    (r : Representation) :
    (∃ fault, g.installIn e r = .error fault ∧ g.installIn e' r = .error fault) ∨
      ∃ e₁ e₁', g.installIn e r = .ok e₁ ∧ g.installIn e' r = .ok e₁' ∧
        e₁.AgreesOff name e₁' := by
  have hhas : (e.backend r).hasGroup g.name = (e'.backend r).hasGroup g.name := by
    rw [Backend.hasGroup, Backend.hasGroup, OrderedMap.contains, OrderedMap.contains,
      OrderedMap.get?_of_erase_eq (h.groups r) hname]
  unfold Glossary.installIn
  rw [← hhas, ← h.mapping_eq hcalls r]
  split
  · exact .inr ⟨e, e', rfl, rfl, h⟩
  · cases g.mapping (e.target r) with
    | error fault => exact .inl ⟨fault, rfl, rfl⟩
    | ok mapping => exact .inr ⟨_, _, rfl, rfl, h.define r fun _ => Render.disregards_lookup name⟩

/-- Installing a glossary of another name, which does not call the name, fails for the same reason
in both engines or in none, and keeps them in agreement. -/
theorem installAll (h : e.AgreesOff name e') (hname : g.name ≠ name) (hcalls : ¬g.Calls name)
    (rs : List Representation) :
    (g.installAll e rs).2 = (g.installAll e' rs).2 ∧
      (g.installAll e rs).1.AgreesOff name (g.installAll e' rs).1 := by
  induction rs generalizing e e' with
  | nil => exact ⟨rfl, h⟩
  | cons r rs ih =>
      unfold Glossary.installAll
      rcases h.installIn hname hcalls r with
        ⟨fault, hfault, hfault'⟩ | ⟨e₁, e₁', he, he', hagrees⟩
      · rw [hfault, hfault']
        exact ⟨rfl, h⟩
      · rw [he, he']
        exact ih hagrees

/-- Installing a glossary of the name in one of the engines changes nothing else. -/
theorem installAll_right (h : e.AgreesOff name e') (hname : g.name = name)
    (rs : List Representation) : e.AgreesOff name (g.installAll e' rs).1 :=
  Glossary.installAll_induction (P := fun e' => e.AgreesOff name e')
    (fun _ r _ _ he' _ _ => he'.define_right r hname) h

end Engine.AgreesOff

end Sigil
