import Sigil.Expression.Descent

/-!
# What routines do to the cursor

What holds where a routine ends is computed from what it does (`Routine.Ends`), so each round of a
loop is described once, by the unit at the cursor. A loop keeps what its rounds keep
(`Descent.ends_loop`).
-/

namespace Sigil

open CodeUnit

/-! ## Where a routine ends -/

namespace Routine

variable {α β : Type} {c : Nat} {Q Q' : α → Nat → Prop} {E E' : Halt → Nat → Prop}

/-- From a place on, the routine returns with the first property or gives up with the second. -/
def Ends (r : Routine α) (c : Nat) (Q : α → Nat → Prop) (E : Halt → Nat → Prop) : Prop :=
  match r.run c with
  | .ok a c' => Q a c'
  | .error halt c' => E halt c'

theorem Ends.mono {r : Routine α} (h : r.Ends c Q E) (hQ : ∀ a c', Q a c' → Q' a c')
    (hE : ∀ halt c', E halt c' → E' halt c') : r.Ends c Q' E' := by
  unfold Ends at h ⊢
  cases hrun : r.run c with
  | ok a c' =>
      rw [hrun] at h
      exact hQ a c' h
  | error halt c' =>
      rw [hrun] at h
      exact hE halt c' h

/-- What a routine returns has the property. -/
theorem Ends.of_run {r : Routine α} (h : r.Ends c Q E) {a : α} {c' : Nat}
    (hrun : r.run c = .ok a c') : Q a c' := by
  rwa [Ends, hrun] at h

theorem Ends.and {r : Routine α} (h : r.Ends c Q E) (h' : r.Ends c Q' E') :
    r.Ends c (fun a c' => Q a c' ∧ Q' a c') (fun halt c' => E halt c' ∧ E' halt c') := by
  unfold Ends at h h' ⊢
  cases hrun : r.run c with
  | ok a c' | error halt c' =>
      rw [hrun] at h h'
      exact ⟨h, h'⟩

theorem Ends.congr {r : Routine α} (hQ : ∀ a c', Q a c' ↔ Q' a c') :
    r.Ends c Q E ↔ r.Ends c Q' E :=
  ⟨fun h => h.mono (fun a c' => (hQ a c').mp) fun _ _ => id,
    fun h => h.mono (fun a c' => (hQ a c').mpr) fun _ _ => id⟩

@[simp]
theorem ends_pure (a : α) : (pure a : Routine α).Ends c Q E ↔ Q a c := Iff.rfl

@[simp]
theorem ends_throw (halt : Halt) : (throw halt : Routine α).Ends c Q E ↔ E halt c := Iff.rfl

@[simp]
theorem ends_get {Q : Nat → Nat → Prop} : (get : Routine Nat).Ends c Q E ↔ Q c c := Iff.rfl

@[simp]
theorem ends_modify {Q : Unit → Nat → Prop} (f : Nat → Nat) :
    (modify f : Routine Unit).Ends c Q E ↔ Q () (f c) := Iff.rfl

@[simp]
theorem ends_bind (r : Routine α) (f : α → Routine β) {Q : β → Nat → Prop} :
    (r >>= f).Ends c Q E ↔ r.Ends c (fun a c' => (f a).Ends c' Q E) E := by
  unfold Ends
  simp only [EStateM.run, bind, EStateM.bind]
  cases r c <;> rfl

@[simp]
theorem ends_ite {p : Prop} [Decidable p] (r r' : Routine α) :
    (if p then r else r').Ends c Q E ↔ if p then r.Ends c Q E else r'.Ends c Q E := by
  split <;> rfl

/-- A result is returned, and a fault is given up with. -/
@[simp]
theorem ends_ofResult (result : Except Fault α) :
    (ofResult result).Ends c Q E ↔
      match result with
      | .ok a => Q a c
      | .error fault => E (.fault fault) c := by
  cases result <;> rfl

end Routine

namespace Descent

open Routine

variable {α σ : Type} {d : Descent} {c : Nat} {E : Halt → Nat → Prop}

@[simp]
theorem ends_peek {Q : Option CodeUnit → Nat → Prop} :
    d.peek.Ends c Q E ↔ Q d.source[c]? c := Iff.rfl

@[simp]
theorem ends_unconsume {Q : Unit → Nat → Prop} : unconsume.Ends c Q E ↔ Q () (c - 1) := Iff.rfl

@[simp]
theorem ends_giveUp {Q : α → Nat → Prop} (cause : ParseCause) :
    (d.giveUp cause : Routine α).Ends c Q E ↔ E (.fault (.parse ⟨cause, d.source, c⟩)) c :=
  Iff.rfl

/-- A unit is taken if there is one. -/
@[simp]
theorem ends_consume {Q : Option CodeUnit → Nat → Prop} :
    d.consume.Ends c Q E ↔ Q d.source[c]? (if d.source[c]?.isSome then c + 1 else c) := by
  simp only [consume, ends_bind, ends_peek, ends_ite, ends_pure, ends_modify]
  split <;> rfl

/-- A unit that has to stand at the cursor is taken, and any other one with it at the end. -/
theorem ends_expect {u : CodeUnit} {flaw : Flaw} {Q : Unit → Nat → Prop} :
    (d.expect u flaw).Ends c Q E ↔
      if d.source[c]? = some u then Q () (c + 1)
      else ∀ c', c' = (if d.source[c]?.isSome then c + 1 else c) →
        E (.fault (.parse ⟨.flaw flaw, d.source, c'⟩)) c' := by
  simp only [expect, ends_bind, ends_consume, ends_ite, ends_giveUp, ends_pure, forall_eq]
  by_cases h : d.source[c]? = some u
  · simp [h]
  · simp [h]

/-! ## Rounds -/

section Rounds

variable {u : CodeUnit} (hu : d.source[c]? = some u)
include hu

theorem ends_literalRound {text : Text} {Q : ForInStep Text → Nat → Prop} :
    (d.literalRound text).Ends c Q E ↔
      if u = dollar then Q (.done text) c
      else if u = backslash ∧ d.source[c + 1]? = some dollar then
        Q (.yield (text ++ [dollar])) (c + 2)
      else Q (.yield (text ++ [u])) (c + 1) := by
  simp only [literalRound, ends_bind, ends_consume, hu, ends_ite, ends_pure, ends_unconsume,
    ends_peek, Option.isSome_some, if_true, Option.some.injEq]
  by_cases hnext : d.source[c + 1]? = some dollar
  · simp [hnext]
  · simp [hnext]

theorem ends_nameRound {name : Text} {Q : ForInStep Text → Nat → Prop} :
    (d.nameRound name).Ends c Q E ↔
      if extendsName name u = true then
        Q (.yield (name ++ [u])) (c + 1)
      else Q (.done name) c := by
  simp only [nameRound, ends_bind, ends_consume, hu, ends_ite, ends_pure, ends_unconsume,
    Option.isSome_some, if_true, Option.any_some, Option.toList_some]
  split <;> rfl

theorem ends_argumentRound {call : Routine Text} {arg : Argument}
    {Q : ForInStep Argument → Nat → Prop} :
    (d.argumentRound call arg).Ends c Q E ↔
      if u = backslash then
        Q (.yield (arg.append d.source[c + 1]?.toList (d.manner.escape d.source[c + 1]?.toList)))
          (if d.source[c + 1]?.isSome then c + 2 else c + 1)
      else if u = dollar then
        call.Ends (c + 1) (fun rendered c' => Q (.yield (arg.append rendered rendered)) c') E
      else if u = comma ∨ u = rightParen then Q (.done arg) c
      else Q (.yield (arg.append [u] (d.manner.escape [u]))) (c + 1) := by
  simp only [argumentRound, ends_bind, ends_consume, hu, ends_ite, ends_pure, ends_unconsume,
    Option.isSome_some, if_true, Option.some.injEq, Option.toList_some, Nat.add_sub_cancel]

end Rounds

/-! ## Loops -/

/-- What a loop needs of a round: an invariant for the rounds behind it, or the right result. -/
def Passes (I Q : σ → Nat → Prop) : ForInStep σ → Nat → Prop
  | .yield s, c => I s c
  | .done s, c => Q s c

/-- A loop keeps the invariant of its rounds up to its result. The invariant may count the rounds
that are left. -/
theorem ends_loop {round : σ → Routine (ForInStep σ)} {I : Nat → σ → Nat → Prop}
    {Q : σ → Nat → Prop}
    (hround : ∀ rounds s c u, d.source[c]? = some u → I (rounds + 1) s c →
      (round s).Ends c (Passes (I rounds) Q) E)
    (hend : ∀ rounds s c, d.source[c]? = none → I rounds s c → Q s c)
    (hlimit : ∀ s c, c < d.source.length → I 0 s c → E .limit c) {rounds : Nat} {s : σ}
    (hI : I rounds s c) : (d.loop round rounds s).Ends c Q E := by
  induction rounds generalizing s c with
  | zero =>
      simp only [loop, ends_bind, ends_peek, ends_ite, ends_pure, ends_throw]
      split
      · exact hend 0 s c (by assumption) hI
      · rename_i hmore
        rw [List.getElem?_eq_none_iff, Nat.not_le] at hmore
        exact hlimit s c hmore hI
  | succ rounds ih =>
      simp only [loop, ends_bind, ends_peek, ends_ite, ends_pure]
      split
      · exact hend (rounds + 1) s c (by assumption) hI
      · rename_i hmore
        obtain ⟨u, hu⟩ := Option.ne_none_iff_exists'.mp hmore
        refine (hround rounds s c u hu hI).mono ?_ (fun _ _ => id)
        rintro (s' | s') c' hpasses
        · exact hpasses
        · exact ih hpasses

/-! ## Calls and arguments -/

variable {call : Routine Text} {depth : Nat}

theorem ends_argumentsRound {args : List Argument} {Q : ForInStep (List Argument) → Nat → Prop} :
    (d.argumentsRound call args).Ends c Q E ↔
      (d.argument call).Ends c (fun arg c' =>
        if d.source[c']? = some comma then
          Q (.yield (if arg.key = [] then args else args ++ [arg])) (c' + 1)
        else Q (.done (if arg.key = [] then args else args ++ [arg])) c') E := by
  rw [argumentsRound, ends_bind]
  refine Ends.congr fun arg c' => ?_
  simp only [ends_bind, ends_peek, ends_ite, ends_consume, ends_pure]
  split
  · rename_i hcomma
    rw [hcomma]
    rfl
  · rfl

end Descent

end Sigil
