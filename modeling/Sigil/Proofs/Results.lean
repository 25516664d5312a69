import Mathlib.Data.List.Forall2

/-!
# Results of computations that may fail

How a result, or a fault, of a composed computation comes from its parts. A list of computations
has a list of results, member by member (`mapM_eq_ok_iff`), and what all of them can fail with is
carried through their composition (`FailsOnly`).
-/

namespace Sigil

variable {ε : Type u} {α β : Type v}

/-- A computation with a continuation succeeds when both do. -/
theorem bind_eq_ok_iff {x : Except ε α} {f : α → Except ε β} {b : β} :
    x >>= f = .ok b ↔ ∃ a, x = .ok a ∧ f a = .ok b := by
  cases x with
  | error fault =>
      constructor
      · intro h
        cases h
      · rintro ⟨_, h, -⟩
        cases h
  | ok a =>
      constructor
      · intro h
        exact ⟨a, rfl, h⟩
      · rintro ⟨_, heq, h⟩
        cases heq
        exact h

/-- A computation with a continuation fails when one of them does. -/
theorem bind_eq_error_iff {x : Except ε α} {f : α → Except ε β} {fault : ε} :
    x >>= f = .error fault ↔ x = .error fault ∨ ∃ a, x = .ok a ∧ f a = .error fault := by
  cases x with
  | error fault' =>
      constructor
      · intro h
        cases h
        exact .inl rfl
      · rintro (h | ⟨_, h, -⟩)
        · cases h
          rfl
        · cases h
  | ok a =>
      constructor
      · intro h
        exact .inr ⟨a, rfl, h⟩
      · rintro (h | ⟨_, heq, h⟩)
        · cases h
        · cases heq
          exact h

/-- A computation that is followed by one that cannot fail has failed itself. -/
theorem eq_error_of_map {x : Except ε α} {f : α → β} {fault : ε}
    (h : (do return f (← x)) = Except.error fault) : x = .error fault := by
  rcases bind_eq_error_iff.mp h with h | ⟨a, -, h⟩
  · exact h
  · cases h

/-- Computations that go on alike behind every result come to the same. -/
theorem bind_congr_ok {x : Except ε α} {f g : α → Except ε β} (h : ∀ a, x = .ok a → f a = g a) :
    x >>= f = x >>= g := by
  cases x with
  | error fault => rfl
  | ok a => exact h a rfl

/-- A computation that has a result is that result. -/
theorem eq_ok_of_toOption {x : Except ε α} {a : α} (h : x.toOption = some a) : x = .ok a := by
  cases x with
  | error fault => cases h
  | ok b =>
      cases h
      rfl

/-- A list of computations succeeds when all of them do. -/
theorem mapM_eq_ok_iff {f : α → Except ε β} {l : List α} {results : List β} :
    l.mapM f = .ok results ↔ List.Forall₂ (fun a b => f a = .ok b) l results := by
  induction l generalizing results with
  | nil =>
      rw [List.mapM_nil, List.forall₂_nil_left_iff]
      constructor
      · intro h
        cases h
        rfl
      · rintro rfl
        rfl
  | cons a l ih =>
      rw [List.mapM_cons, bind_eq_ok_iff]
      constructor
      · rintro ⟨b, hb, h⟩
        obtain ⟨rest, hrest, hresults⟩ := bind_eq_ok_iff.mp h
        cases hresults
        exact .cons hb (ih.mp hrest)
      · rintro (_ | ⟨hb, hrest⟩)
        exact ⟨_, hb, bind_eq_ok_iff.mpr ⟨_, ih.mpr hrest, rfl⟩⟩

/-- A list of computations fails with the fault of the first that fails. -/
theorem mapM_eq_error_iff {f : α → Except ε β} {l : List α} {fault : ε} :
    l.mapM f = .error fault ↔
      ∃ before a after, l = before ++ a :: after ∧ (∀ b ∈ before, ∃ result, f b = .ok result) ∧
        f a = .error fault := by
  induction l with
  | nil =>
      constructor
      · intro h
        cases h
      · rintro ⟨before, a, after, heq, -⟩
        exact absurd heq.symm (List.append_ne_nil_of_right_ne_nil _ (List.cons_ne_nil _ _))
  | cons first rest ih =>
      rw [List.mapM_cons, bind_eq_error_iff]
      constructor
      · rintro (h | ⟨result, hfirst, h⟩)
        · exact ⟨[], first, rest, rfl, List.forall_mem_nil _, h⟩
        · obtain ⟨before, a, after, rfl, hbefore, ha⟩ := ih.mp (eq_error_of_map h)
          exact ⟨first :: before, a, after, rfl,
            List.forall_mem_cons.mpr ⟨⟨result, hfirst⟩, hbefore⟩, ha⟩
      · rintro ⟨before, a, after, heq, hbefore, ha⟩
        cases before with
        | nil =>
            cases heq
            exact .inl ha
        | cons b before =>
            cases heq
            rw [List.forall_mem_cons] at hbefore
            obtain ⟨⟨result, hfirst⟩, hbefore⟩ := hbefore
            refine .inr ⟨result, hfirst, bind_eq_error_iff.mpr (.inl ?_)⟩
            exact ih.mpr ⟨before, a, after, rfl, hbefore, ha⟩

/-- Lists of computations that are the same for every member come to the same. -/
theorem mapM_congr {f g : α → Except ε β} {l : List α} (h : ∀ a ∈ l, f a = g a) :
    l.mapM f = l.mapM g := by
  induction l with
  | nil => rfl
  | cons a l ih =>
      rw [List.forall_mem_cons] at h
      rw [List.mapM_cons, List.mapM_cons, h.1, ih h.2]

/-- A list of results is made of results for the members of another. -/
theorem exists_of_mem_mapM {f : α → Except ε β} {l : List α} {results : List β}
    (h : l.mapM f = .ok results) {b : β} (hb : b ∈ results) : ∃ a ∈ l, f a = .ok b := by
  rw [mapM_eq_ok_iff] at h
  induction h with
  | nil => cases hb
  | @cons a b' l results hresult hrest ih =>
      rcases List.mem_cons.mp hb with rfl | hb
      · exact ⟨a, List.mem_cons_self .., hresult⟩
      · obtain ⟨a', ha', hresult'⟩ := ih hb
        exact ⟨a', List.mem_cons_of_mem _ ha', hresult'⟩

/-- A list of results has one for each member of the other list. -/
theorem exists_result_of_mapM {f : α → Except ε β} {l : List α} {results : List β}
    (h : l.mapM f = .ok results) {a : α} (ha : a ∈ l) : ∃ b ∈ results, f a = .ok b := by
  rw [mapM_eq_ok_iff] at h
  induction h with
  | nil => cases ha
  | @cons a' b l results hresult hrest ih =>
      rcases List.mem_cons.mp ha with rfl | ha
      · exact ⟨b, List.mem_cons_self .., hresult⟩
      · obtain ⟨b', hb', hresult'⟩ := ih ha
        exact ⟨b', List.mem_cons_of_mem _ hb', hresult'⟩

/-- A list of computations that all have results has a list of results. -/
theorem exists_results_of_mapM {f : α → Except ε β} {l : List α}
    (h : ∀ a ∈ l, ∃ b, f a = .ok b) : ∃ results, l.mapM f = .ok results := by
  induction l with
  | nil => exact ⟨[], rfl⟩
  | cons a l ih =>
      rw [List.forall_mem_cons] at h
      obtain ⟨b, hb⟩ := h.1
      obtain ⟨rest, hrest⟩ := ih h.2
      exact ⟨b :: rest, mapM_eq_ok_iff.mpr (.cons hb (mapM_eq_ok_iff.mp hrest))⟩

/-- What a computation leaves as it was stays so along a list. -/
theorem map_eq_of_mapM {f : α → Except ε β} {p : α → γ} {q : β → γ}
    (hf : ∀ a b, f a = .ok b → q b = p a) {l : List α} {results : List β}
    (h : l.mapM f = .ok results) : results.map q = l.map p := by
  rw [mapM_eq_ok_iff] at h
  induction h with
  | nil => rfl
  | cons hresult _ ih => rw [List.map_cons, List.map_cons, ih, hf _ _ hresult]

/-! ## Faults -/

/-- Every fault of the computation has a property. -/
def FailsOnly (P : ε → Prop) (x : Except ε α) : Prop := ∀ fault, x = .error fault → P fault

namespace FailsOnly

variable {P : ε → Prop}

theorem ok (a : α) : FailsOnly P (.ok a) := by
  intro fault h
  cases h

theorem error {fault : ε} (h : P fault) : FailsOnly P (.error fault : Except ε α) := by
  intro fault' h'
  cases h'
  exact h

/-- A computation with a continuation fails as one of them does. -/
theorem bind {x : Except ε α} {f : α → Except ε β} (hx : FailsOnly P x)
    (hf : ∀ a, FailsOnly P (f a)) : FailsOnly P (x >>= f) := by
  intro fault h
  rcases bind_eq_error_iff.mp h with h | ⟨a, -, h⟩
  · exact hx fault h
  · exact hf a fault h

/-- A list of computations fails as one of them does. -/
theorem mapM {f : α → Except ε β} (hf : ∀ a, FailsOnly P (f a)) (l : List α) :
    FailsOnly P (l.mapM f) := by
  induction l with
  | nil => exact ok []
  | cons a l ih =>
      rw [List.mapM_cons]
      exact (hf a).bind fun b => ih.bind fun rest => ok (b :: rest)

end FailsOnly

end Sigil
