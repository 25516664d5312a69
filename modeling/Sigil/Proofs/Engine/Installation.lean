import Sigil.Proofs.Engine.Locality

/-!
# Installing a glossary

What is there behind an installation that succeeded: every representation has the group, with the
codes that its expressions have in the engine as it was before (`Glossary.isInstalled_install`,
`Glossary.exists_code_of_mapping`). The group is added to one representation after another, but the
expressions are none of its calls and no renderer reads its tables, so the order does not matter.
-/

namespace Sigil

namespace Glossary

variable {g : Glossary} {e e' : Engine} {r : Representation}

/-! ## Codes -/

/-- Every symbol has a code: the representation's own spelling, or what its expression is written
out to. -/
theorem exists_code_of_mapping {target : Target} {mapping : Mapping}
    (h : g.mapping target = .ok mapping) {key expression : Text}
    (hexpression : g.expressions.get? key = some expression) :
    ∃ code, g.code target key expression = .ok code ∧ mapping.get? key = some code := by
  obtain ⟨entries, hentries, hmapping⟩ := bind_eq_ok_iff.mp h
  cases hmapping
  -- each symbol keeps its key, so that the keys of the codes are distinct
  have hkeys : entries.map Prod.fst = g.expressions.keys := by
    refine map_eq_of_mapM ?_ hentries
    intro symbol entry hentry
    obtain ⟨code, -, hresult⟩ := bind_eq_ok_iff.mp hentry
    cases hresult
    rfl
  obtain ⟨entry, hmem, hentry⟩ :=
    exists_result_of_mapM hentries (OrderedMap.mem_entries_iff.mpr hexpression)
  obtain ⟨code, hcode, hresult⟩ := bind_eq_ok_iff.mp hentry
  cases hresult
  exact ⟨code, hcode, OrderedMap.get?_ofList_of_mem (hkeys ▸ g.expressions.nodup) hmem⟩

/-- There are codes for a glossary if there is one for each symbol. -/
theorem exists_mapping_iff {target : Target} :
    (∃ mapping, g.mapping target = .ok mapping) ↔
      ∀ key expression, (key, expression) ∈ g.expressions.entries →
        ∃ code, g.code target key expression = .ok code := by
  constructor
  · rintro ⟨mapping, hmapping⟩ key expression hentry
    obtain ⟨entries, hentries, -⟩ := bind_eq_ok_iff.mp hmapping
    obtain ⟨coded, -, hcoded⟩ := exists_result_of_mapM hentries hentry
    obtain ⟨code, hcode, -⟩ := bind_eq_ok_iff.mp hcoded
    exact ⟨code, hcode⟩
  · intro h
    cases hmapping : g.mapping target with
    | ok mapping => exact ⟨mapping, rfl⟩
    | error fault =>
        obtain ⟨before, ⟨key, expression⟩, after, hentries, -, hfault⟩ :=
          mapM_eq_error_iff.mp (eq_error_of_map hmapping)
        obtain ⟨code, hcode⟩ := h key expression
          (hentries ▸ List.mem_append_right before (List.mem_cons_self ..))
        cases hcode.symm.trans (eq_error_of_map hfault)

/-! ## Installation -/

/-- The engine has the group of a glossary in one representation, with the given codes. -/
structure IsInstalled (g : Glossary) (e : Engine) (r : Representation) (mapping : Mapping) :
    Prop where
  group : (e.backend r).groups.get? g.name = some (g.definition mapping).group
  table? : e.registry.table? r g.name = some ⟨g.description, mapping⟩

/-- A group that was added to a representation is installed there. -/
theorem isInstalled_define (g : Glossary) (e : Engine) (r : Representation) (mapping : Mapping) :
    g.IsInstalled (e.define r (g.definition mapping)) r mapping := by
  refine ⟨?_, ?_⟩
  · rw [Engine.backend_define_self]
    exact OrderedMap.get?_insert_self ..
  · show (e.registry.install r g.name ⟨g.description, mapping⟩).table? r g.name = _
    rw [Registry.table?_install, if_pos ⟨rfl, rfl⟩]

/-- Adding a group to other representations leaves a group installed. -/
theorem IsInstalled.installAll {mapping : Mapping} (h : g.IsInstalled e r mapping) (g' : Glossary)
    {rs : List Representation} (hr : r ∉ rs) :
    g.IsInstalled (g'.installAll e rs).1 r mapping := by
  refine installAll_induction (P := fun e => g.IsInstalled e r mapping) ?_ h
  intro e r' hr' mapping' he _ _
  have hne : r ≠ r' := fun heq => hr (heq ▸ hr')
  refine ⟨?_, ?_⟩
  · rw [Engine.backend_define_of_ne _ _ _ _ hne]
    exact he.group
  · rw [Engine.table?_define_of_ne _ _ _ _ fun hand => hne hand.1]
    exact he.table?

/-- A group that is new to the representations, and is installed in all of them, has the codes there
that its expressions had before. -/
theorem isInstalled_installAll {rs : List Representation} (hrs : rs.Nodup)
    (hnew : ∀ r ∈ rs, (e.backend r).hasGroup g.name = false)
    (hignores : ∀ r ∈ rs, (e.backend r).Ignores g.name)
    (hinstall : g.installAll e rs = (e', none)) (hr : r ∈ rs) :
    ∃ mapping, g.mapping (e.target r) = .ok mapping ∧ g.IsInstalled e' r mapping := by
  induction rs generalizing e with
  | nil => cases hr
  | cons first rest ih =>
      rw [List.nodup_cons] at hrs
      rw [List.forall_mem_cons] at hnew hignores
      unfold Glossary.installAll at hinstall
      split at hinstall
      · rename_i e₁ hfirst
        obtain ⟨hgroup, -⟩ | ⟨-, mapping, hmapping, rfl⟩ := installIn_eq_ok hfirst
        · rw [hnew.1] at hgroup
          cases hgroup
        rcases List.mem_cons.mp hr with rfl | hr
        · refine ⟨mapping, hmapping, ?_⟩
          have hinstalled := (isInstalled_define g e r mapping).installAll g hrs.1
          rwa [hinstall] at hinstalled
        -- the group is in one representation already, whose tables no other target reads
        · have hbackend : ∀ r ∈ rest, (e.define first (g.definition mapping)).backend r =
              e.backend r := by
            intro r hr
            exact Engine.backend_define_of_ne _ _ _ _ fun heq => hrs.1 (heq ▸ hr)
          have htarget : (e.define first (g.definition mapping)).target r = e.target r :=
            (hignores.2 r hr).target_define fun heq => hrs.1 (heq ▸ hr)
          obtain ⟨mapping', hmapping', hinstalled⟩ := ih hrs.2
            (fun r hr => by rw [hbackend r hr]; exact hnew.2 r hr)
            (fun r hr => by rw [hbackend r hr]; exact hignores.2 r hr) hinstall hr
          refine ⟨mapping', ?_, hinstalled⟩
          rwa [htarget] at hmapping'
      · cases hinstall

/-- A group that is new to a local engine, and is installed in it, has the codes that its
expressions had before. -/
theorem isInstalled_install (he : e.Local) (hnew : ∀ r, (e.backend r).hasGroup g.name = false)
    (hinstall : g.install e = (e', none)) (r : Representation) :
    ∃ mapping, g.mapping (e.target r) = .ok mapping ∧ g.IsInstalled e' r mapping :=
  isInstalled_installAll (by decide) (fun r _ => hnew r) (fun r _ => he.ignores hnew r) hinstall
    (Representation.mem_all r)

end Glossary

end Sigil
