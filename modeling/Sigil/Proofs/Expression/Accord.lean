import Mathlib.Data.List.Forall2
import Sigil.Proofs.Expression.Steps
import Sigil.Proofs.Text.Visibility

/-!
# One source, two targets

Two targets take the same tokens of a source, and whether an argument counts depends on its key
alone, which is dropped if it is empty. So two targets whose renderings are alike in what is to be
seen of them come through a source together, or give it up together (`Target.Accords.run`). They
need to be alike for calls within arguments only, and there for those that the source has and that
nothing visible stands beside (`Target.isClear`). Evaluation is lenient here, and nothing is escaped.
-/

namespace Sigil

/-! ## Outcomes side by side -/

/-- Two computations concur if both succeed, with results that are related, or if both give up at
the same offset, for causes of the same kind. -/
def Concur {α β : Type} (R : α → β → Prop) (x : Except Fault α) (y : Except Fault β) : Prop :=
  (∃ a b, x = .ok a ∧ y = .ok b ∧ R a b) ∨
    ∃ e e' : ParseFault, x = .error (.parse e) ∧ y = .error (.parse e') ∧
      e.cause.kind = e'.cause.kind ∧ e.offset = e'.offset

namespace Concur

variable {α β γ δ : Type} {R : α → β → Prop} {S : γ → δ → Prop}

theorem ok {a : α} {b : β} (h : R a b) : Concur R (.ok a) (.ok b) := .inl ⟨a, b, rfl, rfl, h⟩

/-- Giving up at one offset for causes of one kind. -/
theorem giveUp {source : Text} {offset : Int} {cause cause' : ParseCause}
    (h : cause.kind = cause'.kind) :
    Concur R (Target.giveUp source offset cause) (Target.giveUp source offset cause') :=
  .inr ⟨_, _, rfl, rfl, h, rfl⟩

/-- Computations that concur go on together. -/
theorem bind {x : Except Fault α} {y : Except Fault β} {f : α → Except Fault γ}
    {g : β → Except Fault δ} (h : Concur R x y)
    (hnext : ∀ a b, x = .ok a → R a b → Concur S (f a) (g b)) : Concur S (x >>= f) (y >>= g) := by
  rcases h with ⟨a, b, rfl, rfl, hab⟩ | ⟨e, e', rfl, rfl, hkind, hoffset⟩
  · exact hnext a b rfl hab
  · exact .inr ⟨e, e', rfl, rfl, hkind, hoffset⟩

/-- Computations that concur with the same one concur with each other. -/
theorem join {R' : γ → β → Prop} {S : α → γ → Prop} {x : Except Fault α} {y : Except Fault β}
    {z : Except Fault γ} (h : Concur R x y) (h' : Concur R' z y)
    (hS : ∀ a b c, R a b → R' c b → S a c) : Concur S x z := by
  rcases h with ⟨a, b, rfl, rfl, hab⟩ | ⟨e, e', rfl, rfl, hkind, hoffset⟩
  · rcases h' with ⟨c, b', rfl, hb, hcb⟩ | ⟨_, _, -, hb, -⟩
    · cases hb
      exact .ok (hS a b c hab hcb)
    · cases hb
  · rcases h' with ⟨_, _, -, he, -⟩ | ⟨e₁, e₁', rfl, he, hkind', hoffset'⟩
    · cases he
    · cases he
      exact .inr ⟨e, e₁, rfl, rfl, hkind.trans hkind'.symm, hoffset.trans hoffset'.symm⟩

/-- Computations that concur with one of them all have results, or all give up at the same offset
for causes of the same kind. -/
theorem all {ι : Type} {R : α → α → Prop} (x : ι → Except Fault α) {i₀ : ι}
    (h : ∀ i, Concur R (x i₀) (x i)) :
    (∀ i, ∃ a, x i = .ok a) ∨
      ∃ kind offset, ∀ i, ∃ e : ParseFault, x i = .error (.parse e) ∧ e.cause.kind = kind ∧
        e.offset = offset := by
  rcases h i₀ with ⟨a₀, -, h₀, -, -⟩ | ⟨e₀, -, h₀, -, -, -⟩
  · left
    intro i
    rcases h i with ⟨-, a, -, ha, -⟩ | ⟨_, -, hfault, -⟩
    · exact ⟨a, ha⟩
    · rw [h₀] at hfault
      cases hfault
  · right
    refine ⟨e₀.cause.kind, e₀.offset, ?_⟩
    intro i
    rcases h i with ⟨_, -, ha, -⟩ | ⟨e, e', he, he', hkind, hoffset⟩
    · rw [h₀] at ha
      cases ha
    · rw [h₀] at he
      cases he
      exact ⟨e', he', hkind.symm, hoffset.symm⟩

end Concur

/-! ## States side by side -/

/-- The arguments come from source that was not escaped, and as much is to be seen of one as of the
other. -/
structure Argument.Alike (a a' : Argument) : Prop where
  text : a.text = a.key
  text' : a'.text = a'.key
  visibility : a.key.visibility = a'.key.visibility

namespace Argument

variable {args args' : List Argument}

/-- Without escaping the texts of arguments are their keys. -/
theorem texts_of_alike (h : List.Forall₂ Alike args args') :
    args.map text = args.map key ∧ args'.map text = args'.map key := by
  induction h with
  | nil => exact ⟨rfl, rfl⟩
  | cons h _ ih => simp only [List.map_cons, h.text, h.text', ih.1, ih.2, and_self]

theorem alike_symm (h : List.Forall₂ Alike args args') : List.Forall₂ Alike args' args := by
  induction h with
  | nil => exact .nil
  | cons h _ ih => exact .cons ⟨h.text', h.text, h.visibility.symm⟩ ih

/-- Arguments that are alike to others are alike to themselves. -/
theorem alike_self (h : List.Forall₂ Alike args args') : List.Forall₂ Alike args args := by
  induction h with
  | nil => exact .nil
  | cons h _ ih => exact .cons ⟨h.text, h.text, rfl⟩ ih

theorem visibility_of_alike (h : List.Forall₂ Alike args args') :
    (args.map key).map Text.visibility = (args'.map key).map Text.visibility := by
  induction h with
  | nil => rfl
  | cons h _ ih => simp only [List.map_cons, h.visibility, ih]

end Argument

/-- What is known of an argument that is being read, whatever the target. -/
structure Sight where
  /-- Something of it is visible. -/
  visible : Bool := false
  /-- Of a call in it nothing is known. -/
  doubtful : Bool := false

namespace Sight

/-- Nothing is in doubt, or something is visible beside it. -/
def isClear (sight : Sight) : Bool := sight.visible || !sight.doubtful

/-- Behind more text. -/
def add (sight : Sight) (t : Text) : Sight :=
  { sight with visible := sight.visible || t.visibility = .visible }

/-- Behind a call of which nothing is known. -/
def doubt (sight : Sight) : Sight := { sight with doubtful := true }

end Sight

/-- The beginnings of arguments come from source that was not escaped, and what is known of them
holds of both: they are visible, or as much is to be seen of one as of the other. -/
structure Argument.AlikeUpTo (sight : Sight) (a a' : Argument) : Prop where
  text : a.text = a.key
  text' : a'.text = a'.key
  visible : sight.visible = true → a.key.visibility = .visible ∧ a'.key.visibility = .visible
  visibility : sight.doubtful = false → a.key.visibility = a'.key.visibility

namespace Argument.AlikeUpTo

variable {sight : Sight} {a a' : Argument}

/-- Arguments without a doubt are alike. -/
theorem alike (h : a.AlikeUpTo sight a') (hclear : sight.isClear = true) : a.Alike a' := by
  refine ⟨h.text, h.text', ?_⟩
  rw [Sight.isClear, Bool.or_eq_true, Bool.not_eq_true'] at hclear
  rcases hclear with hvisible | hdoubtful
  · rw [(h.visible hvisible).1, (h.visible hvisible).2]
  · exact h.visibility hdoubtful

/-- Nothing was read of either yet. -/
theorem refl_empty : AlikeUpTo {} {} {} := ⟨rfl, rfl, nofun, fun _ => rfl⟩

end Argument.AlikeUpTo

/-- The calls have the same name, and alike arguments as far as is known. -/
structure OpenCall.Alike (sight : Sight) (c c' : OpenCall) : Prop where
  name : c.name = c'.name
  args : List.Forall₂ Argument.Alike c.args c'.args
  current : c.current.AlikeUpTo sight c'.current

namespace OpenCall.Alike

variable {sight : Sight} {c c' : OpenCall}

/-- Adding alike texts keeps calls alike. -/
theorem append (h : c.Alike sight c') {t t' : Text} (ht : t.visibility = t'.visibility) :
    (c.append t t).Alike (sight.add t) (c'.append t' t') := by
  refine ⟨h.name, h.args, ?_, ?_, ?_, ?_⟩
  · show c.current.text ++ t = c.current.key ++ t
    rw [h.current.text]
  · show c'.current.text ++ t' = c'.current.key ++ t'
    rw [h.current.text']
  · intro hvisible
    simp only [Sight.add, Bool.or_eq_true, decide_eq_true_eq] at hvisible
    rcases hvisible with hvisible | hvisible
    · obtain ⟨hkey, hkey'⟩ := h.current.visible hvisible
      exact ⟨Text.visibility_append_left hkey t, Text.visibility_append_left hkey' t'⟩
    · exact ⟨Text.visibility_append_right _ hvisible,
        Text.visibility_append_right _ (ht ▸ hvisible)⟩
  · intro hdoubtful
    show (c.current.key ++ t).visibility = (c'.current.key ++ t').visibility
    rw [Text.visibility_append, Text.visibility_append, h.current.visibility hdoubtful, ht]

/-- Adding any texts leaves a doubt, but nothing else. -/
theorem append_doubt (h : c.Alike sight c') (t t' : Text) :
    (c.append t t).Alike sight.doubt (c'.append t' t') := by
  refine ⟨h.name, h.args, ?_, ?_, ?_, nofun⟩
  · show c.current.text ++ t = c.current.key ++ t
    rw [h.current.text]
  · show c'.current.text ++ t' = c'.current.key ++ t'
    rw [h.current.text']
  · intro hvisible
    obtain ⟨hkey, hkey'⟩ := h.current.visible hvisible
    exact ⟨Text.visibility_append_left hkey t, Text.visibility_append_left hkey' t'⟩

/-- An argument without a doubt is dropped from both of two alike calls, or from none. -/
theorem completeArgument (h : c.Alike sight c') (hclear : sight.isClear = true) :
    c.completeArgument.Alike {} c'.completeArgument := by
  have hcurrent := h.current.alike hclear
  have hdropped : c.current.key = [] ↔ c'.current.key = [] := by
    rw [← Text.visibility_eq_empty_iff, ← Text.visibility_eq_empty_iff, hcurrent.visibility]
  refine ⟨h.name, ?_, .refl_empty⟩
  simp only [OpenCall.completeArgument, hdropped]
  split
  · exact h.args
  · exact List.rel_append h.args (.cons hcurrent .nil)

end OpenCall.Alike

/-- Open calls are alike one by one, as far as is known of their arguments. -/
inductive OpenCall.AllAlike : List Sight → List OpenCall → List OpenCall → Prop where
  | nil : AllAlike [] [] []
  | cons {sight : Sight} {sights : List Sight} {c c' : OpenCall} {outer outer' : List OpenCall}
      (h : c.Alike sight c') (houter : AllAlike sights outer outer') :
      AllAlike (sight :: sights) (c :: outer) (c' :: outer')

/-- The same calls are open, and alike. If all calls are looked at, the finished fragments are alike
too. -/
structure Progress.Alike (all : Bool) (sights : List Sight) (p p' : Progress) : Prop where
  calls : OpenCall.AllAlike sights p.calls p'.calls
  fragments : all = true → p.fragments.map (fun fragment => fragment.text.visibility) =
    p'.fragments.map fun fragment => fragment.text.visibility

/-! ## Runs side by side -/

namespace Target

/-- What is known of the arguments that are being read behind a token, if no argument is in doubt
that ends there. A call that is not admitted leaves a doubt in the argument that it is part of. It is
refused where no call encloses it, if all calls are looked at. -/
def look (target : Target) (admits : Text → List Text → Bool) (all : Bool) (source : Text)
    (p : Progress) (sights : List Sight) : Token → Option (List Sight)
  | .literal _ => some sights
  | .call _ _ => some ({} :: sights)
  | .unit u =>
    match sights with
    | [] => some []
    | sight :: outer => some (sight.add [u] :: outer)
  | .comma =>
    match sights with
    | [] => some []
    | sight :: outer => if sight.isClear then some ({} :: outer) else none
  | .close stop =>
    match p.calls, sights with
    | c :: _, sight :: outer =>
      let args := c.completeArgument.args
      let admitted := admits c.name (args.map Argument.key)
      if !sight.isClear then none
      else
        match outer with
        | [] => if all && !admitted then none else some []
        | enclosing :: outer =>
          match target.renderCall {} source stop c.name args with
          | .ok rendered =>
            some ((if admitted then enclosing.add rendered else enclosing.doubt) :: outer)
          | .error _ => some (enclosing :: outer)
    | _, _ => some sights

/-- No argument is in doubt where evaluation ends it on its way through the tokens. -/
def isClear (target : Target) (admits : Text → List Text → Bool) (all : Bool) (source : Text) :
    List Token → Progress → List Sight → Bool
  | [], _, _ => true
  | token :: rest, p, sights =>
    match target.look admits all source p sights token, target.step {} source p token with
    | none, _ => false
    | some sights, .ok p => isClear target admits all source rest p sights
    | some _, .error _ => true

/-- Two targets render leniently what the other does. Their renderings of an admitted call are alike
in what is to be seen of them. -/
def Accords (target target' : Target) (admits : Text → List Text → Bool) : Prop :=
  ∀ source stop callee args args', List.Forall₂ Argument.Alike args args' →
    Concur (fun rendered rendered' => admits callee (args.map Argument.key) = true →
        rendered.visibility = rendered'.visibility)
      (target.renderCall {} source stop callee args)
      (target'.renderCall {} source stop callee args')

variable {target target' : Target} {admits : Text → List Text → Bool} {all : Bool} {source : Text}

/-- Targets that accord with the same one accord with each other, if alike arguments are admitted
together. -/
theorem Accords.join {bare : Target} (h : target.Accords bare admits)
    (h' : target'.Accords bare admits)
    (hadmits : ∀ callee keys keys', keys.map Text.visibility = keys'.map Text.visibility →
      admits callee keys = admits callee keys') : target.Accords target' admits := by
  intro source stop callee args args' halike
  refine (h source stop callee args args (Argument.alike_self halike)).join
    (h' source stop callee args' args (Argument.alike_symm halike)) ?_
  intro rendered common rendered' heq heq' hadmitted
  rw [heq hadmitted, heq' ((hadmits _ _ _ (Argument.visibility_of_alike halike)) ▸ hadmitted)]

/-- Two targets that accord complete a call together. -/
theorem Accords.close (h : target.Accords target' admits) {stop : Nat}
    {fragments fragments' : List Fragment} {c c' : OpenCall} {outer outer' : List OpenCall}
    {sight : Sight} {sights sights' : List Sight} (hcall : c.Alike sight c')
    (houter : OpenCall.AllAlike sights outer outer')
    (hfragments : all = true → fragments.map (fun fragment => fragment.text.visibility) =
      fragments'.map fun fragment => fragment.text.visibility)
    (hlook : target.look admits all source ⟨fragments, c :: outer⟩ (sight :: sights) (.close stop) =
      some sights') :
    Concur (Progress.Alike all sights')
      (target.step {} source ⟨fragments, c :: outer⟩ (.close stop))
      (target'.step {} source ⟨fragments', c' :: outer'⟩ (.close stop)) := by
  have hclear : sight.isClear = true := by
    cases hsight : sight.isClear with
    | true => rfl
    | false => simp only [look, hsight, Bool.not_false, if_true, reduceCtorEq] at hlook
  rw [step_close, step_close, ← hcall.name]
  refine (h source stop c.name _ _ (hcall.completeArgument hclear).args).bind ?_
  intro rendered rendered' hrendered halike
  refine .ok ?_
  simp only [look, hclear, Bool.not_true, Bool.false_eq_true, if_false] at hlook
  cases houter with
  | nil =>
      -- no call encloses this one, so that it matters only if all calls are looked at
      simp only [Option.ite_none_left_eq_some, Option.some.injEq] at hlook
      obtain ⟨hadmitted, rfl⟩ := hlook
      refine ⟨.nil, ?_⟩
      intro hall
      rw [hall, Bool.true_and, Bool.not_eq_true', Bool.not_eq_false] at hadmitted
      simp only [Progress.receive, List.map_append, List.map_cons, List.map_nil, hfragments hall,
        halike hadmitted]
  | cons henclosing houter =>
      simp only [hrendered, Option.some.injEq] at hlook
      subst hlook
      refine ⟨.cons ?_ houter, hfragments⟩
      split
      · rename_i hadmitted
        exact henclosing.append (halike hadmitted)
      · exact henclosing.append_doubt _ _

/-- Two targets that accord take a token together. -/
theorem Accords.step (h : target.Accords target' admits) {p p' : Progress}
    {sights sights' : List Sight} (hp : p.Alike all sights p') {token : Token}
    (hlook : target.look admits all source p sights token = some sights') :
    Concur (Progress.Alike all sights') (target.step {} source p token)
      (target'.step {} source p' token) := by
  obtain ⟨fragments, calls⟩ := p
  obtain ⟨fragments', calls'⟩ := p'
  obtain ⟨hcalls, hfragments⟩ := hp
  cases token with
  | literal t =>
      cases hlook
      refine .ok ⟨hcalls, ?_⟩
      intro hall
      simp only [List.map_append, hfragments hall]
  | call callee stop =>
      cases hlook
      exact .ok ⟨.cons ⟨rfl, .nil, .refl_empty⟩ hcalls, hfragments⟩
  | unit u =>
      cases hcalls with
      | nil =>
          cases hlook
          exact .ok ⟨.nil, hfragments⟩
      | cons hcall houter =>
          cases hlook
          exact .ok ⟨.cons (hcall.append rfl) houter, hfragments⟩
  | comma =>
      cases hcalls with
      | nil =>
          cases hlook
          exact .ok ⟨.nil, hfragments⟩
      | cons hcall houter =>
          simp only [look] at hlook
          split at hlook <;> cases hlook
          rename_i hclear
          exact .ok ⟨.cons (hcall.completeArgument hclear) houter, hfragments⟩
  | close stop =>
      cases hcalls with
      | nil =>
          cases hlook
          exact .ok ⟨.nil, hfragments⟩
      | cons hcall houter => exact h.close hcall houter hfragments hlook

/-- Two targets that accord come through a scan together, or give the source up together. -/
theorem Accords.run (h : target.Accords target' admits) (s : Scan) {p p' : Progress}
    {sights : List Sight} (hp : p.Alike all sights p')
    (hclear : target.isClear admits all source s.tokens p sights = true) :
    Concur (fun q q' => ∃ sights, q.Alike all sights q') (target.run {} source s p)
      (target'.run {} source s p') := by
  obtain ⟨tokens, flaw⟩ := s
  induction tokens generalizing p p' sights with
  | nil =>
      cases flaw with
      | none => exact .ok ⟨sights, hp⟩
      | some flaw => exact .giveUp rfl
  | cons token rest ih =>
      simp only [isClear] at hclear
      cases hlook : target.look admits all source p sights token with
      | none =>
          rw [hlook] at hclear
          cases hclear
      | some sights' =>
          rw [hlook] at hclear
          rw [run_mk_cons, run_mk_cons]
          refine (h.step hp hlook).bind ?_
          intro q q' hq halike
          rw [hq] at hclear
          exact ih halike hclear

/-- No argument of a source is in doubt where evaluation ends it. A call leaves a doubt in the
argument that it is part of, unless it is admitted or something visible stands beside it. If all calls
are looked at, those between calls have to be admitted too. -/
def isClearIn (target : Target) (admits : Text → List Text → Bool) (all : Bool) (source : Text) :
    Bool :=
  target.isClear admits all source (Scan.ofText source).tokens {} []

/-- Two targets that accord evaluate a source together, or give it up together. -/
theorem Accords.evaluate (h : target.Accords target' admits)
    (hclear : target.isClearIn admits all source = true) :
    Concur
      (fun fragments fragments' => all = true →
        fragments.map (fun fragment => fragment.text.visibility) =
          fragments'.map fun fragment => fragment.text.visibility)
      (target.evaluate {} source) (target'.evaluate {} source) := by
  have hinitial : ({} : Progress).Alike all [] {} := ⟨.nil, fun _ => rfl⟩
  rw [evaluate_eq_run, evaluate_eq_run]
  exact (h.run _ hinitial hclear).bind fun _ _ _ ⟨_, halike⟩ => .ok halike.fragments

/-- Two targets that accord write a source out leniently, or give it up together. -/
theorem Accords.parse (h : target.Accords target' admits)
    (hclear : target.isClearIn admits all source = true) {options options' : Options}
    (hmanner : options.manner target = {}) (hmanner' : options'.manner target' = {}) :
    Concur (fun _ _ => True) (target.parse source options) (target'.parse source options') := by
  rw [Target.parse, Target.parse, hmanner, hmanner']
  exact (h.evaluate hclear).bind fun _ _ _ _ => .ok trivial

end Target

/-- What is to be seen of output depends on what is to be seen of each fragment. -/
theorem Fragment.visibility_concat_congr {fragments fragments' : List Fragment}
    (h : fragments.map (fun fragment => fragment.text.visibility) =
      fragments'.map fun fragment => fragment.text.visibility) :
    (concat fragments).visibility = (concat fragments').visibility := by
  unfold concat
  induction fragments generalizing fragments' with
  | nil =>
      rw [List.map_nil] at h
      rw [List.map_eq_nil_iff.mp h.symm]
  | cons fragment rest ih =>
      obtain ⟨fragment', rest', rfl, hfirst, hrest⟩ := List.map_eq_cons_iff.mp h.symm
      rw [List.flatMap_cons, List.flatMap_cons, Text.visibility_append, Text.visibility_append,
        hfirst, ih hrest.symm]

end Sigil
