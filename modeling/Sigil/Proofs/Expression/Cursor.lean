import Sigil.Proofs.Expression.Routines

/-!
# Where routines leave the cursor

All routines leave the cursor between the place where it was and the end of the source, and they do
not reach limits that suffice for the units in front of them (`Descent.Stops`). A call ends behind its
parenthesis (`Descent.readsCall_call`), an argument in front of what ends it
(`Descent.ends_argument`), and a fragment further on than it began (`Descent.ends_fragment`).
-/

namespace Sigil

open CodeUnit

/-- A backslash at the end of a text escapes the unit behind it, unless it is escaped itself. -/
def Text.escapesNext (t : Text) : Bool :=
  t.foldl (fun escaped u => u == backslash && !escaped) false

namespace Descent

open Routine

variable {σ : Type} {d : Descent} {c : Nat} {call : Routine Text} {depth : Nat}

/-! ## Giving up -/

/-- How a routine gives up that begins at a place: the cursor is between this place and the end of
the source, and no limit has been reached if the limits suffice. -/
def Stops (d : Descent) (start : Nat) (suffice : Prop) (halt : Halt) (c : Nat) : Prop :=
  start ≤ c ∧ c ≤ d.source.length ∧ (suffice → halt ≠ .limit)

variable {start : Nat} {suffice suffice' : Prop}

theorem Stops.mono {start' : Nat} {halt : Halt} (h : d.Stops start suffice halt c)
    (hstart : start' ≤ start) (hsuffice : suffice' → suffice) : d.Stops start' suffice' halt c :=
  ⟨Nat.le_trans hstart h.1, h.2.1, fun hs => h.2.2 (hsuffice hs)⟩

theorem stops_fault {fault : Fault} (hstart : start ≤ c) (hc : c ≤ d.source.length) :
    d.Stops start suffice (.fault fault) c := ⟨hstart, hc, fun _ => nofun⟩

theorem lt_length {u : CodeUnit} (hu : d.source[c]? = some u) : c < d.source.length :=
  (List.getElem?_eq_some_iff.mp hu).1

/-- A loop stays where its rounds stay. If every round that is not the last moves the cursor, as many
rounds as units suffice. -/
theorem ends_loop_stops {round : σ → Routine (ForInStep σ)} {I Q : σ → Nat → Prop} {rounds : Nat}
    {s : σ} (hround : ∀ s c u, d.source[c]? = some u → start ≤ c → I s c →
      (round s).Ends c (fun r c' => c ≤ c' ∧ c' ≤ d.source.length ∧
        Passes (fun s c' => c < c' ∧ I s c') Q r c') (d.Stops start suffice))
    (hend : ∀ s, I s d.source.length → Q s d.source.length) (hstart : start ≤ d.source.length)
    (hI : I s start) (hlimit : suffice → d.source.length ≤ rounds) :
    (d.loop round rounds s).Ends start
      (fun s c => start ≤ c ∧ c ≤ d.source.length ∧ Q s c) (d.Stops start suffice) := by
  refine ends_loop (I := fun left s c => start ≤ c ∧ c ≤ d.source.length ∧
    start + rounds ≤ c + left ∧ I s c) ?_ ?_ ?_ ⟨Nat.le_refl start, hstart, Nat.le_refl _, hI⟩
  · rintro left s c u hu ⟨hc, -, hleft, hI⟩
    refine (hround s c u hu hc hI).mono ?_ fun _ _ => id
    rintro (s' | s') c' ⟨hmoved, hc', hpasses⟩
    · exact ⟨Nat.le_trans hc hmoved, hc', hpasses⟩
    · have := hpasses.1
      exact ⟨Nat.le_trans hc hmoved, hc', by omega, hpasses.2⟩
  · rintro left s c hnone ⟨hc, hc', -, hI⟩
    obtain rfl := Nat.le_antisymm hc' (List.getElem?_eq_none_iff.mp hnone)
    exact ⟨hc, hc', hend s hI⟩
  · rintro s c hlt ⟨hc, hc', hleft, -⟩
    refine ⟨hc, hc', fun hsuffice => ?_⟩
    have := hlimit hsuffice
    omega

/-- The unit that has to stand at the cursor is taken, or the cursor stays within the source. -/
theorem ends_expect_stops {u : CodeUnit} {flaw : Flaw} {Q : Unit → Nat → Prop}
    (hstart : start ≤ c) (hc : c ≤ d.source.length)
    (hQ : d.source[c]? = some u → Q () (c + 1)) :
    (d.expect u flaw).Ends c Q (d.Stops start suffice) := by
  rw [ends_expect]
  split
  · exact hQ (by assumption)
  · rintro c' rfl
    cases hv : d.source[c]? with
    | none => exact stops_fault hstart hc
    | some v => exact stops_fault (Nat.le_succ_of_le hstart) (lt_length hv)

/-- Literal text ends at a dollar sign or with the source. -/
theorem ends_literalRun (hc : c ≤ d.source.length) :
    d.literalRun.Ends c
      (fun _ c' => c ≤ c' ∧ c' ≤ d.source.length ∧
        (c' = d.source.length ∨ d.source[c']? = some dollar))
      (d.Stops c (d.source.length ≤ d.limit)) := by
  simp only [literalRun, ends_bind, ends_pure]
  refine ends_loop_stops (I := fun _ _ => True) ?_ (fun _ _ => .inl rfl) hc trivial id
  intro text c₁ u hu hc₁ _
  have hlt := lt_length hu
  rw [ends_literalRound hu]
  split
  · rename_i hdollar
    exact ⟨Nat.le_refl c₁, Nat.le_of_lt hlt, .inr (hdollar ▸ hu)⟩
  split
  · rename_i hescape
    exact ⟨by omega, lt_length hescape.2, by omega, trivial⟩
  · exact ⟨by omega, hlt, by omega, trivial⟩

/-- The cursor has moved behind a name. -/
theorem ends_name (hc : c ≤ d.source.length) :
    d.name.Ends c
      (fun name c' => c ≤ c' ∧ c' ≤ d.source.length ∧ (name ≠ [] → c < c'))
      (d.Stops c (d.source.length ≤ d.limit)) := by
  refine ends_loop_stops (I := fun name c' => name ≠ [] → c < c') ?_ (fun _ => id) hc
    (fun h => absurd rfl h) id
  intro name c₁ u hu hc₁ hI
  have hlt := lt_length hu
  rw [ends_nameRound hu]
  split
  · exact ⟨by omega, hlt, by omega, fun _ => by omega⟩
  · exact ⟨Nat.le_refl c₁, Nat.le_of_lt hlt, hI⟩

/-! ### Calls -/

/-- The part of the source between two places. -/
def between (d : Descent) (start stop : Nat) : Text := (d.source.take stop).drop start

theorem between_self (c : Nat) : d.between c c = [] := List.drop_take_self

/-- The part grows by the unit at its end. -/
theorem between_succ {u : CodeUnit} (hu : d.source[c]? = some u) (hstart : start ≤ c) :
    d.between start (c + 1) = d.between start c ++ [u] := by
  have hlt := lt_length hu
  rw [between, List.take_add_one, hu, List.drop_append_of_le_length]
  · rfl
  · rw [List.length_take]
    omega

theorem escapesNext_append (t : Text) (u : CodeUnit) :
    Text.escapesNext (t ++ [u]) = (u == backslash && !t.escapesNext) := by
  simp [Text.escapesNext]

/-- The routine reads a call: the unit in front of the cursor is its closing parenthesis then. The
limits suffice if there is a round for each unit, and if calls may nest as deeply as there are units
left. -/
def ReadsCall (d : Descent) (depth : Nat) (call : Routine Text) : Prop :=
  ∀ c ≤ d.source.length,
    call.Ends c
      (fun _ c' => c < c' ∧ c' ≤ d.source.length ∧ d.source[c' - 1]? = some rightParen)
      (d.Stops c (d.source.length ≤ d.limit ∧ d.source.length < c + depth))

/-- An argument ends with the source, or at a comma or a closing parenthesis that no backslash
escapes. -/
theorem ends_argument (hcall : d.ReadsCall depth call) (hc : c ≤ d.source.length) :
    (d.argument call).Ends c
      (fun _ c' => c ≤ c' ∧ c' ≤ d.source.length ∧ (c' = d.source.length ∨
        (d.source[c']? = some comma ∨ d.source[c']? = some rightParen) ∧
          (d.between c c').escapesNext = false))
      (d.Stops c (d.source.length ≤ d.limit ∧ d.source.length ≤ c + depth)) := by
  -- between rounds no backslash waits for the next unit, unless the source ends with one
  refine ends_loop_stops (I := fun _ c' => c' = d.source.length ∨
    (d.between c c').escapesNext = false) ?_ (fun _ _ => .inl rfl) hc ?_ And.left
  · intro arg c₁ u hu hc₁ hI
    have hlt := lt_length hu
    have hopen : (d.between c c₁).escapesNext = false :=
      hI.resolve_left (Nat.ne_of_lt hlt)
    rw [ends_argumentRound hu]
    split
    · rename_i hbackslash
      cases hv : d.source[c₁ + 1]? with
      | none =>
          have hend : c₁ + 1 = d.source.length :=
            Nat.le_antisymm hlt (List.getElem?_eq_none_iff.mp hv)
          exact ⟨by simp, hlt, by simp, .inl hend⟩
      | some v =>
          refine ⟨by simp, lt_length hv, by simp, .inr ?_⟩
          rw [Option.isSome_some, if_pos rfl, between_succ hv (by omega),
            between_succ hu hc₁, escapesNext_append, escapesNext_append, hopen, hbackslash]
          simp
    split
    · refine (hcall (c₁ + 1) hlt).mono ?_ fun halt c' h =>
        h.mono (by omega) fun hs => ⟨hs.1, by omega⟩
      rintro rendered c' ⟨hmoved, hc', hparen⟩
      refine ⟨by omega, hc', by omega, .inr ?_⟩
      have hgrown := between_succ hparen (show c ≤ c' - 1 by omega)
      rw [Nat.sub_add_cancel (by omega)] at hgrown
      rw [hgrown, escapesNext_append]
      rfl
    split
    · rename_i hends
      refine ⟨Nat.le_refl c₁, Nat.le_of_lt hlt, .inr ⟨?_, hopen⟩⟩
      rwa [hu, Option.some.injEq, Option.some.injEq]
    · rename_i hbackslash _ _
      refine ⟨by omega, hlt, by omega, .inr ?_⟩
      rw [between_succ hu hc₁, escapesNext_append]
      simp [hbackslash]
  · right
    rw [between_self]
    rfl

/-- Arguments leave the cursor within the source. -/
theorem ends_arguments (hcall : d.ReadsCall depth call) (hc : c ≤ d.source.length) :
    (d.arguments call).Ends c (fun _ c' => c ≤ c' ∧ c' ≤ d.source.length)
      (d.Stops c (d.source.length ≤ d.limit ∧ d.source.length ≤ c + depth)) := by
  have hloop : (d.arguments call).Ends c
      (fun _ c' => c ≤ c' ∧ c' ≤ d.source.length ∧ True)
      (d.Stops c (d.source.length ≤ d.limit ∧ d.source.length ≤ c + depth)) := by
    refine ends_loop_stops (I := fun _ _ => True) ?_ (fun _ _ => trivial) hc trivial And.left
    intro args c₁ u hu hc₁ _
    rw [ends_argumentsRound]
    refine (ends_argument hcall (Nat.le_of_lt (lt_length hu))).mono ?_ fun halt c' h =>
      h.mono hc₁ fun hs => ⟨hs.1, by omega⟩
    rintro arg c₂ ⟨hmoved, hc₂, -⟩
    split
    · rename_i hcomma
      exact ⟨by omega, lt_length hcomma, by omega, trivial⟩
    · exact ⟨hmoved, hc₂, trivial⟩
  exact hloop.mono (fun _ _ h => ⟨h.1, h.2.1⟩) fun _ _ => id

/-- A call moves the cursor behind its closing parenthesis. -/
theorem readsCall_call (d : Descent) (depth : Nat) : d.ReadsCall depth (d.call depth) := by
  -- a call in an argument begins further on, so it needs less of the depth
  induction depth with
  | zero =>
      intro c hc
      exact ⟨Nat.le_refl c, hc, fun hs => absurd hs.2 (by omega)⟩
  | succ depth ih =>
      intro c hc
      simp only [call, ends_bind, ends_ite, ends_giveUp, ends_get]
      refine (ends_name hc).mono ?_ fun halt c' h => h.mono (Nat.le_refl c) And.left
      rintro name c₁ ⟨hc₁, hc₁', -⟩
      split
      · exact stops_fault hc₁ hc₁'
      split
      · exact stops_fault hc₁ hc₁'
      refine ends_expect_stops hc₁ hc₁' fun hopen => ?_
      refine (ends_arguments ih (lt_length hopen)).mono ?_ fun halt c' h =>
        h.mono (by omega) fun hs => ⟨hs.1, by omega⟩
      rintro args c₂ ⟨hc₂, hc₂'⟩
      refine ends_expect_stops (by omega) hc₂' fun hclose => ?_
      rw [ends_ofResult]
      have hlt := lt_length hclose
      split
      · exact ⟨by omega, hlt, hclose⟩
      · exact stops_fault (by omega) hlt

/-! ### Fragments -/

/-- A fragment moves the cursor. -/
theorem ends_fragment (depth : Nat) (hc : c < d.source.length) :
    (d.fragment depth).Ends c (fun _ c' => c < c' ∧ c' ≤ d.source.length)
      (d.Stops c (d.source.length ≤ d.limit ∧ d.source.length ≤ c + depth)) := by
  simp only [fragment, ends_bind, ends_peek, ends_ite, ends_consume, ends_pure]
  split
  · rename_i hdollar
    rw [hdollar]
    refine (d.readsCall_call depth (c + 1) hc).mono ?_ fun halt c' h =>
      h.mono (by omega) fun hs => ⟨hs.1, by omega⟩
    rintro rendered c' ⟨hmoved, hc', -⟩
    exact ⟨by omega, hc'⟩
  · rename_i hdollar
    refine (ends_literalRun (Nat.le_of_lt hc)).mono ?_ fun halt c' h =>
      h.mono (Nat.le_refl c) And.left
    rintro text c' ⟨hmoved, hc', hends⟩
    have hne : c ≠ c' := by
      rintro rfl
      exact hends.elim (by omega) hdollar
    exact ⟨by omega, hc'⟩

/-- A source is read to its end, and there are no more fragments than units. -/
theorem ends_fragments (depth : Nat) :
    (d.fragments depth).Ends 0
      (fun fragments c => c = d.source.length ∧ fragments.length ≤ c)
      (d.Stops 0 (d.source.length ≤ d.limit ∧ d.source.length ≤ depth)) := by
  have hloop : (d.fragments depth).Ends 0
      (fun fragments c => 0 ≤ c ∧ c ≤ d.source.length ∧
        c = d.source.length ∧ fragments.length ≤ c)
      (d.Stops 0 (d.source.length ≤ d.limit ∧ d.source.length ≤ depth)) := by
    refine ends_loop_stops (I := fun fragments c => fragments.length ≤ c) ?_
      (fun _ h => ⟨rfl, h⟩) (Nat.zero_le _) (Nat.le_refl 0) And.left
    intro fragments c u hu _ hI
    simp only [ends_bind, ends_pure]
    refine (ends_fragment depth (lt_length hu)).mono ?_ fun halt c' h =>
      h.mono (Nat.zero_le c) fun hs => ⟨hs.1, by omega⟩
    rintro fragment c' ⟨hmoved, hc'⟩
    refine ⟨by omega, hc', hmoved, ?_⟩
    show (fragments ++ [fragment]).length ≤ c'
    rw [List.length_append, List.length_singleton]
    omega
  exact hloop.mono (fun _ _ h => h.2.2) fun _ _ => id

/-- A call at an offset moves the cursor from its dollar sign behind its parenthesis. -/
theorem ends_parseCall (depth : Nat) (hc : c ≤ d.source.length) :
    (d.parseCall depth).Ends c
      (fun result c' => c < c' ∧ c' ≤ d.source.length ∧ result.2 = c' ∧
        d.source[c' - 1]? = some rightParen)
      (d.Stops c (d.source.length ≤ d.limit ∧ d.source.length ≤ c + depth)) := by
  simp only [parseCall, ends_bind, ends_pure, ends_get]
  refine ends_expect_stops (Nat.le_refl c) hc fun hdollar => ?_
  refine (d.readsCall_call depth (c + 1) (lt_length hdollar)).mono ?_ fun halt c' h =>
    h.mono (Nat.le_succ c) fun hs => ⟨hs.1, by omega⟩
  rintro rendered c' ⟨hmoved, hc', hparen⟩
  exact ⟨by omega, hc', trivial, hparen⟩

end Descent

end Sigil
