import Sigil.Proofs.Engine.Faults
import Sigil.Proofs.Expression.Accord

/-!
# Backends that accord

A backend accords with the target that renders every call as its bare arguments
(`Backend.accords_bare`), if a visible first argument makes every call visible, and if no group but
some hollow ones renders a call whose first argument is not (`Group.IsOrderly`). So backends accord
with each other that have the same groups with the same arities.
-/

namespace Sigil

/-! ## Bare arguments -/

namespace Target

/-- The target that renders every call as its arguments, if the group that it names takes as many.
A call that names no group is not refused. -/
def bare (arity? : Text → Option Arity) : Target where
  representation := .plain
  known callee := (arity? callee).isSome
  invoke callee keys texts :=
    if (arity? callee).all fun arity => arity.accepts keys.length then .ok (Text.join " " texts)
    else .error (.invalidArgument callee "wrong number of arguments")
  translate rendered _ := rendered

theorem bare_renderCall (arity? : Text → Option Arity) (source : Text) (stop : Nat)
    (callee : Text) (args : List Argument) :
    (bare arity?).renderCall {} source stop callee args =
      if (arity? callee).all fun arity => arity.accepts args.length then
        .ok (Text.join " " (args.map Argument.text))
      else giveUp source stop (.invalidArgument "wrong number of arguments") := by
  simp only [renderCall, bare, List.length_map]
  cases arity? callee with
  | none => rfl
  | some arity =>
      simp only [Option.isSome_some, if_true, Option.all_some]
      by_cases haccepts : arity.accepts args.length = true
      · simp only [if_pos haccepts]
      · simp only [if_neg haccepts]

/-- The target of bare arguments accords with itself, since joined arguments are as visible as their
parts. -/
theorem bare_accords (arity? : Text → Option Arity) (admits : Text → List Text → Bool) :
    (bare arity?).Accords (bare arity?) admits := by
  intro source stop callee args args' halike
  obtain ⟨htexts, htexts'⟩ := Argument.texts_of_alike halike
  rw [bare_renderCall, bare_renderCall, htexts, htexts', halike.length_eq]
  split
  · exact .ok fun _ => Text.visibility_join_congr _ (Argument.visibility_of_alike halike)
  · exact .giveUp rfl

/-- The call is of none of the groups, or its first argument is visible. -/
def spares (groups : List Text) (callee : Text) (keys : List Text) : Bool :=
  !groups.contains callee || keys.head?.all fun key => key.visibility = .visible

/-- Whether a call is spared depends on what is to be seen of its arguments. -/
theorem spares_congr (groups : List Text) (callee : Text) (keys keys' : List Text)
    (h : keys.map Text.visibility = keys'.map Text.visibility) :
    spares groups callee keys = spares groups callee keys' := by
  have hhead : keys.head?.map Text.visibility = keys'.head?.map Text.visibility := by
    rw [← List.head?_map, ← List.head?_map, h]
  have hall : ∀ keys : List Text, (keys.head?.all fun key => key.visibility = .visible) =
      (keys.head?.map Text.visibility).all fun v => v = .visible := by
    intro keys
    cases keys <;> rfl
  rw [spares, spares, hall, hall, hhead]

end Target

/-! ## Groups -/

/-- The groups that may leave nothing to be seen of a blank argument, each in some representation:
they cut the blanks off it, and render what is left. -/
def hollowGroups : List Text := ["arabic", "frac", "math", "script", "sub", "sup"]

namespace Render

/-- A renderer makes something visible of a visible first argument. Nothing is escaped, so that the
texts of arguments are their keys. -/
def Shows (render : Render) (reg : Registry) (r : Representation) (callee : Text) : Prop :=
  ∀ peers key rest rendered, key.visibility = .visible →
    render ⟨reg, r, peers⟩ ⟨callee, key :: rest, key :: rest⟩ = .ok rendered →
      rendered.visibility = .visible

/-- A renderer makes nothing of a first argument that is not visible. -/
def Refuses (render : Render) (reg : Registry) (r : Representation) (callee : Text) : Prop :=
  ∀ peers key rest rendered, key.visibility ≠ .visible →
    render ⟨reg, r, peers⟩ ⟨callee, key :: rest, key :: rest⟩ ≠ .ok rendered

end Render

/-- A group renders calls with a visible first argument to something visible, and other calls not at
all, unless it is one of the hollow ones. -/
structure Group.IsOrderly (group : Group) (reg : Registry) (r : Representation) (callee : Text) :
    Prop where
  closed : group.Closed
  shows : group.render.Shows reg r callee
  refuses : callee ∉ hollowGroups → group.render.Refuses reg r callee

/-- What an orderly group renders a spared call to is as visible as the bare arguments. -/
theorem Group.IsOrderly.visibility_eq {group : Group} {reg : Registry} {r : Representation}
    {callee key rendered : Text} {rest : List Text} {peers : Representation → Peer}
    (h : group.IsOrderly reg r callee)
    (hspared : Target.spares hollowGroups callee (key :: rest) = true)
    (hrendered : group.render ⟨reg, r, peers⟩ ⟨callee, key :: rest, key :: rest⟩ = .ok rendered) :
    rendered.visibility = (Text.join " " (key :: rest)).visibility := by
  by_cases hkey : key.visibility = .visible
  · rw [h.shows peers key rest rendered hkey hrendered, Text.visibility_join _ rest hkey]
  · have hhollow : callee ∉ hollowGroups := by
      intro hhollow
      simp [Target.spares, hhollow, hkey] at hspared
    exact absurd hrendered (h.refuses hhollow peers key rest rendered hkey)

namespace Backend

/-- A backend whose groups are orderly accords with the target of bare arguments. -/
theorem accords_bare {b : Backend} {reg : Registry} {peers : Representation → Peer}
    {arity? : Text → Option Arity}
    (harity : ∀ callee, (b.groups.get? callee).map Group.arity = arity? callee)
    (hzero : ∀ callee arity, arity? callee = some arity → arity.accepts 0 = false)
    (hgroups : b.AllGroups fun callee group => group.IsOrderly reg b.representation callee) :
    (b.target reg peers).Accords (Target.bare arity?) (Target.spares hollowGroups) := by
  intro source stop callee args args' halike
  obtain ⟨htexts, htexts'⟩ := Argument.texts_of_alike halike
  have hjoin : (Text.join " " (args.map Argument.key)).visibility =
      (Text.join " " (args'.map Argument.key)).visibility :=
    Text.visibility_join_congr _ (Argument.visibility_of_alike halike)
  rw [Target.bare_renderCall, ← harity, ← halike.length_eq, htexts']
  simp only [Target.renderCall, target, peer, peerBy, invokeBy, htexts, hasGroup,
    OrderedMap.contains, List.length_map]
  cases hgroup : b.groups.get? callee with
  | none => exact .ok fun _ => hjoin
  | some group =>
      have horderly := hgroups callee group hgroup
      simp only [Option.isSome_some, if_true, Option.map_some, Option.all_some]
      by_cases haccepts : group.arity.accepts args.length = true
      · rw [if_pos haccepts, if_pos haccepts]
        -- an accepted call has a first argument, and so has the bare one
        obtain ⟨a, rest, rfl⟩ : ∃ a rest, args = a :: rest := by
          cases args with
          | cons a rest => exact ⟨a, rest, rfl⟩
          | nil =>
              have hnone := hzero callee group.arity (by rw [← harity, hgroup]; rfl)
              rw [List.length_nil, hnone] at haccepts
              cases haccepts
        simp only [List.map_cons] at hjoin ⊢
        cases hrender : group.render ⟨reg, b.representation, peers⟩
            ⟨callee, a.key :: rest.map Argument.key, a.key :: rest.map Argument.key⟩ with
        | ok rendered =>
            refine .ok ?_
            intro hspared
            exact (horderly.visibility_eq hspared hrender).trans hjoin
        | error fault =>
            have hmissing := horderly.closed.isMissing (by simpa using haccepts) (by simp) hrender
            cases fault with
            | unknownGroup group reason => exact .ok fun _ => hjoin
            | unknownKey group key reason => exact .ok fun _ => hjoin
            | _ => cases hmissing
      · rw [if_neg haccepts, if_neg haccepts]
        exact .giveUp rfl

end Backend

end Sigil
