import Sigil.Proofs.Backend.Accord
import Sigil.Proofs.Registry.Tables

/-!
# What renderers show

If the codes in the tables are visible, every built-in group renders a visible argument to something
visible (`Backend.shows_definitions`). The one that is not hollow is the group of Greek letters: it
looks up what is left of its argument without the blanks around it, and no key is empty
(`Backend.refuses_definitions`).
-/

namespace Sigil

/-! ## Tables -/

/-- No key of the mapping is empty, and all codes are visible. -/
def Mapping.Shows (m : Mapping) : Prop :=
  ∀ key code, m.get? key = some code → key ≠ [] ∧ code.visibility = .visible

namespace Registry

/-- The table under an id, if there is one, has visible codes and no empty key. -/
def Shows (reg : Registry) (r : Representation) (id : Text) : Prop :=
  ∀ table, reg.table? r id = some table → table.mapping.Shows

variable {reg : Registry} {r : Representation} {id : Text}

/-- A lookup in such a table finds something visible, and only under a key that is not empty. -/
theorem Shows.lookup (h : reg.Shows r id) {key code : Text}
    (hcode : reg.lookup r id key = .ok code) : key ≠ [] ∧ code.visibility = .visible := by
  obtain ⟨table, htable, hentry⟩ := lookup_eq_ok_iff.mp hcode
  exact h table htable key code hentry

/-- The codes of the characters of a text are visible, one after another, if there is a first. -/
theorem Shows.lookupEach (h : reg.Shows r id) {t : Text} (ht : t ≠ []) {codes : List Text}
    (hcodes : t.characters.mapM (reg.lookup r id) = .ok codes) :
    ∃ code rest, codes = code :: rest ∧ code.visibility = .visible := by
  cases hcharacters : t.characters with
  | nil =>
      have hflatten := t.flatten_characters
      rw [hcharacters] at hflatten
      exact absurd hflatten.symm ht
  | cons character others =>
      rw [hcharacters] at hcodes
      cases mapM_eq_ok_iff.mp hcodes with
      | cons hcode hrest => exact ⟨_, _, rfl, (h.lookup hcode).2⟩

end Registry

/-! ## Renderers -/

/-- What is left of a visible text without the blanks around it is not nothing. -/
theorem Text.trim_ne_nil {t : Text} (h : t.visibility = .visible) : t.trim ≠ [] := by
  intro htrim
  have hvisible := visibility_trim h
  rw [htrim] at hvisible
  cases hvisible

namespace Render

variable {reg : Registry} {r : Representation} {callee : Text}

theorem shows_lookup (h : reg.Shows r callee) : Render.Shows .lookup reg r callee := by
  intro parse key rest rendered _ hrendered
  exact (h.lookup hrendered).2

theorem refuses_lookup (h : reg.Shows r callee) : Render.Refuses .lookup reg r callee := by
  intro parse key rest rendered hkey hrendered
  exact (h.lookup hrendered).1 (Text.trim_eq_nil hkey)

theorem shows_lookupEach (h : reg.Shows r callee) : Render.Shows .lookupEach reg r callee := by
  intro parse key rest rendered hkey hrendered
  obtain ⟨_, ⟨⟩, hcodes⟩ := bind_eq_ok_iff.mp hrendered
  obtain ⟨codes, hcodes, hresult⟩ := bind_eq_ok_iff.mp hcodes
  obtain ⟨code, others, rfl, hcode⟩ := h.lookupEach (Text.trim_ne_nil hkey) hcodes
  cases hresult
  exact Text.visibility_flatten others hcode

theorem shows_enclose (front back : Text) : Render.Shows (.enclose front back) reg r callee := by
  intro parse key rest rendered hkey hrendered
  cases hrendered
  exact Text.visibility_append_left (Text.visibility_append_right front hkey) back

end Render

variable {reg : Registry} {r : Representation} {callee : Text}

theorem Plain.shows_renderMath (h : reg.Shows r callee) :
    Render.Shows renderMath reg r callee := by
  intro parse key rest rendered hkey hrendered
  replace hrendered : mathSymbol ⟨reg, r, parse⟩ callee key.trim = .ok rendered := hrendered
  unfold mathSymbol at hrendered
  split at hrendered
  · cases hrendered
    exact Text.visibility_trim hkey
  · exact (h.lookup hrendered).2

theorem Plain.shows_renderFraction : Render.Shows renderFraction reg r callee := by
  intro parse key rest rendered _ hrendered
  obtain ⟨_, ⟨⟩, hrendered⟩ := bind_eq_ok_iff.mp hrendered
  obtain ⟨denominator, -, hresult⟩ := bind_eq_ok_iff.mp hrendered
  cases hresult
  exact Text.visibility_append_left (Text.visibility_append_right _ rfl) _

/-- A fraction that is built from its parts shows its slash. -/
theorem Unicode.visibility_built {scope : Scope}
    (hmath : scope.registry.Shows scope.representation "math") {numerator denominator out : Text}
    (hout : (do
      let raised ← scope.lookupEach "sup" numerator
      let slash ← scope.lookup "math" "frac"
      let lowered ← scope.lookupEach "sub" denominator
      return raised ++ slash ++ lowered) = Except.ok out) : out.visibility = .visible := by
  obtain ⟨raised, -, hout⟩ := bind_eq_ok_iff.mp hout
  obtain ⟨slash, hslash, hout⟩ := bind_eq_ok_iff.mp hout
  obtain ⟨lowered, -, hresult⟩ := bind_eq_ok_iff.mp hout
  cases hresult
  exact Text.visibility_append_left
    (Text.visibility_append_right raised (hmath.lookup hslash).2) lowered

/-- A fraction shows its numerator if one is below it, and otherwise the sign for infinity, a
character of its own or a slash. -/
theorem Unicode.shows_renderFraction (h : reg.Shows r callee) (hmath : reg.Shows r "math") :
    Render.Shows renderFraction reg r callee := by
  intro parse key rest rendered hkey hrendered
  have hnumerator : key.trim.visibility = .visible := Text.visibility_trim hkey
  obtain ⟨_, ⟨⟩, hrest⟩ := bind_eq_ok_iff.mp hrendered
  obtain ⟨denominator, -, hrendered⟩ := bind_eq_ok_iff.mp hrest
  simp only [fraction] at hrendered
  split at hrendered
  · cases hrendered
    exact hnumerator
  split at hrendered
  · exact (hmath.lookup hrendered).2
  split at hrendered
  · split at hrendered
    · cases hrendered
      exact Text.visibility_append_left (Text.visibility_append_left hnumerator _) _
    · exact visibility_built hmath hrendered
  · exact (h.lookup hrendered).2

namespace Html

/-- References to the characters of a text that has some are visible. -/
theorem visibility_references {t : Text} (ht : t.visibility = .visible) :
    (references t).visibility = .visible := by
  cases hpoints : t.codePoints with
  | nil =>
      have hspelled := t.ofCodePoints_codePoints
      rw [hpoints] at hspelled
      rw [← hspelled] at ht
      cases ht
  | cons c points =>
      rw [references, Text.mapPoints, hpoints, List.flatMap_cons]
      refine Text.visibility_append_left ?_ _
      exact Text.visibility_append_left (Text.visibility_append_left rfl _) _

theorem shows_renderReference (h : reg.Shows .unicode callee) :
    Render.Shows renderReference reg r callee := by
  intro parse key rest rendered _ hrendered
  obtain ⟨_, ⟨⟩, hreference⟩ := bind_eq_ok_iff.mp hrendered
  obtain ⟨code, hcode, hresult⟩ := bind_eq_ok_iff.mp hreference
  cases hresult
  exact visibility_references (h.lookup hcode).2

theorem shows_renderEachReference (h : reg.Shows .unicode callee) :
    Render.Shows renderEachReference reg r callee := by
  intro parse key rest rendered hkey hrendered
  obtain ⟨_, ⟨⟩, hcodes⟩ := bind_eq_ok_iff.mp hrendered
  obtain ⟨codes, hcodes, hresult⟩ := bind_eq_ok_iff.mp hcodes
  obtain ⟨code, others, rfl, hcode⟩ := h.lookupEach (Text.trim_ne_nil hkey) hcodes
  cases hresult
  rw [List.flatMap_cons]
  exact Text.visibility_append_left (visibility_references hcode) _

theorem shows_renderFraction : Render.Shows renderFraction reg r callee := by
  intro parse key rest rendered _ hrendered
  obtain ⟨_, ⟨⟩, hrendered⟩ := bind_eq_ok_iff.mp hrendered
  obtain ⟨denominator, -, hresult⟩ := bind_eq_ok_iff.mp hrendered
  cases hresult
  exact Text.visibility_append_right _ rfl

end Html

theorem Latex.shows_renderScript : Render.Shows renderScript reg r callee := by
  intro parse key rest rendered _ hrendered
  cases hrendered
  exact Text.visibility_append_left rfl _

theorem Latex.shows_renderFraction : Render.Shows renderFraction reg r callee := by
  intro parse key rest rendered _ hrendered
  cases hrendered
  exact Text.visibility_append_left (Text.visibility_append_left rfl _) _

/-! ## Built-in groups -/

namespace Backend

/-- The names of the built-in groups that bring a table. -/
def tabledNames (r : Representation) : List Text :=
  ((definitions r).filter fun d => d.mapping.isSome).map Definition.name

theorem tabledNames_eq (r : Representation) :
    tabledNames r =
      match r with
      | .plain => ["arabic", "greek", "math", "script"]
      | .unicode => ["arabic", "frac", "greek", "math", "script", "sub", "sup"]
      | .html => ["greek"]
      | .latex => ["greek", "math"] := by
  cases r <;> rfl

/-- All built-in groups show visible arguments, if their tables have visible codes. -/
theorem shows_definitions (htables : ∀ r, ∀ name ∈ tabledNames r, reg.Shows r name)
    (r : Representation) : ∀ d ∈ definitions r, d.render.Shows reg r d.name := by
  have htable := htables r
  -- HTML refers to the characters of the tables for Unicode
  have hunicode := htables .unicode
  simp only [tabledNames_eq, List.forall_mem_cons] at hunicode
  obtain ⟨harabic, hfrac, hgreek, hmath, hscript, hsub, hsup, -⟩ := hunicode
  cases r with
  | plain =>
      simp only [tabledNames_eq, definitions, Plain.definitions, List.forall_mem_cons] at htable ⊢
      obtain ⟨harabic, hgreek, hmath, hscript, -⟩ := htable
      exact ⟨Render.shows_lookupEach harabic, Plain.shows_renderFraction,
        Render.shows_lookup hgreek, Plain.shows_renderMath hmath, Render.shows_lookupEach hscript,
        Render.shows_enclose _ _, Render.shows_enclose _ _, List.forall_mem_nil _⟩
  | unicode =>
      simp only [definitions, Unicode.definitions, List.forall_mem_cons]
      exact ⟨Render.shows_lookupEach harabic, Unicode.shows_renderFraction hfrac hmath,
        Render.shows_lookup hgreek, Render.shows_lookup hmath, Render.shows_lookupEach hscript,
        Render.shows_lookupEach hsub, Render.shows_lookupEach hsup, List.forall_mem_nil _⟩
  | html =>
      simp only [tabledNames_eq, definitions, Html.definitions, List.forall_mem_cons] at htable ⊢
      obtain ⟨hentities, -⟩ := htable
      exact ⟨Html.shows_renderEachReference harabic, Html.shows_renderFraction,
        Render.shows_lookup hentities, Html.shows_renderReference hmath,
        Html.shows_renderEachReference hscript, Render.shows_enclose _ _,
        Render.shows_enclose _ _, List.forall_mem_nil _⟩
  | latex =>
      simp only [tabledNames_eq, definitions, Latex.definitions, List.forall_mem_cons] at htable ⊢
      obtain ⟨hgreek, hmath, -⟩ := htable
      exact ⟨Render.shows_enclose _ _, Latex.shows_renderFraction, Render.shows_lookup hgreek,
        Render.shows_lookup hmath, Latex.shows_renderScript, Render.shows_enclose _ _,
        Render.shows_enclose _ _, List.forall_mem_nil _⟩

/-- The only built-in group that is not hollow refuses what is not visible. -/
theorem refuses_definitions (htables : ∀ r, ∀ name ∈ tabledNames r, reg.Shows r name)
    (r : Representation) :
    ∀ d ∈ definitions r, d.name ∉ hollowGroups → d.render.Refuses reg r d.name := by
  have hgreek : reg.Shows r "greek" := htables r _ (by cases r <;> decide)
  have hlookup : ∀ d ∈ definitions r, d.name ∉ hollowGroups →
      d.name = "greek" ∧ d.render = Render.lookup := by
    intro d hd hhollow
    cases r <;>
      simp only [definitions, Plain.definitions, Unicode.definitions, Html.definitions,
        Latex.definitions, List.mem_cons, List.not_mem_nil, or_false] at hd <;>
      rcases hd with rfl | rfl | rfl | rfl | rfl | rfl | rfl <;>
      first | exact ⟨rfl, rfl⟩ | exact absurd (by decide) hhollow
  intro d hd hhollow
  obtain ⟨hname, hrender⟩ := hlookup d hd hhollow
  rw [hname, hrender]
  exact Render.refuses_lookup hgreek

/-- All built-in groups are orderly, if their tables have visible codes. -/
theorem orderly_definitions (htables : ∀ r, ∀ name ∈ tabledNames r, reg.Shows r name)
    (r : Representation) : ∀ d ∈ definitions r, d.group.IsOrderly reg r d.name :=
  fun d hd => ⟨closed_definitions r d hd, shows_definitions htables r d hd,
    refuses_definitions htables r d hd⟩

end Backend

end Sigil
