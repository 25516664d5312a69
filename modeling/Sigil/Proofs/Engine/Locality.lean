import Sigil.Proofs.Engine.Creation

/-!
# What renderers read

A renderer reads the tables under the name of its group, and that of Unicode fractions three others.
They are all built-in ones (`Backend.reads_definitions`). So a table under a name that is no group's
means nothing to the calls of an engine (`Engine.Local.ignores`), and installing it changes the
target of no backend that was there before (`Backend.Ignores.target_eq`).
-/

namespace Sigil

open Registry (AgreesOff)

/-! ## Renderers -/

/-- Calls of a group are rendered from these tables alone, which may depend on the representation in
which they are written out. Nothing is asked of other backends. -/
def Render.Reads (render : Render) (callee : Text)
    (tables : Representation → List (Representation × Text)) : Prop :=
  ∀ reg reg' r, (∀ t ∈ tables r, Registry.table? reg t.1 t.2 = Registry.table? reg' t.1 t.2) →
    ∀ peers peers' keys texts, render ⟨reg, r, peers⟩ ⟨callee, keys, texts⟩ =
      render ⟨reg', r, peers'⟩ ⟨callee, keys, texts⟩

/-- Lookups of single characters in one table are the same where the table is. -/
theorem Scope.lookupEach_congr {reg reg' : Registry} {r : Representation} {table : Text}
    (h : reg.table? r table = reg'.table? r table) (peers peers' : Representation → Peer) :
    (⟨reg, r, peers⟩ : Scope).lookupEach table = (⟨reg', r, peers'⟩ : Scope).lookupEach table := by
  funext t
  show (do return (← t.characters.mapM (reg.lookup r table)).flatten) = _
  rw [Registry.lookup_congr h]
  rfl

section

variable (callee : Text)

namespace Render

/-- What is made of a key reads the tables that making it reads. -/
theorem reads_ofKey {f : Scope → Text → Text → Except Fault Text}
    {tables : Representation → List (Representation × Text)}
    (hf : ∀ reg reg' r, (∀ t ∈ tables r, Registry.table? reg t.1 t.2 = Registry.table? reg' t.1 t.2) →
      ∀ peers peers' key, f ⟨reg, r, peers⟩ callee key = f ⟨reg', r, peers'⟩ callee key) :
    Render.Reads (.ofKey f) callee tables := by
  intro reg reg' r h peers peers' keys texts
  exact bind_congr fun key => hf reg reg' r h peers peers' key

theorem reads_lookup : Render.Reads .lookup callee fun r => [(r, callee)] := by
  refine reads_ofKey callee fun reg reg' r h peers peers' key => ?_
  exact congrFun (Registry.lookup_congr (h (r, callee) (List.mem_singleton_self _))) _

theorem reads_lookupEach : Render.Reads .lookupEach callee fun r => [(r, callee)] := by
  refine reads_ofKey callee fun reg reg' r h peers peers' key => ?_
  exact congrFun (Scope.lookupEach_congr (h (r, callee) (List.mem_singleton_self _)) peers peers') _

/-- A renderer of which nothing but the call is known reads no tables. -/
theorem reads_of_calls (f : Invocation → Except Fault Text) :
    Render.Reads (fun _ call => f call) callee fun _ => [] :=
  fun _ _ _ _ _ _ _ _ => rfl

end Render

theorem Plain.reads_renderMath : Render.Reads renderMath callee fun r => [(r, callee)] := by
  refine Render.reads_ofKey callee fun reg reg' r h peers peers' key => ?_
  have hown := Registry.lookup_congr (h (r, callee) (List.mem_singleton_self _))
  simp only [mathSymbol, Scope.lookup, hown]

/-- The tables that fractions are built from when they have no character of their own. -/
def Unicode.borrowedTables : List Text := ["math", "sub", "sup"]

theorem Unicode.reads_renderFraction : Render.Reads renderFraction callee fun r =>
    (r, callee) :: borrowedTables.map (r, ·) := by
  intro reg reg' r h peers peers' keys texts
  simp only [borrowedTables, List.map_cons, List.map_nil, List.forall_mem_cons] at h
  obtain ⟨hown, hmath, hsub, hsup, -⟩ := h
  simp only [renderFraction, fraction, Scope.lookup, Registry.lookup_congr hown, Registry.lookup_congr hmath,
    Scope.lookupEach_congr hsub peers peers', Scope.lookupEach_congr hsup peers peers']

theorem Html.reads_renderReference :
    Render.Reads renderReference callee fun _ => [(.unicode, callee)] := by
  refine Render.reads_ofKey callee fun reg reg' r h peers peers' key => ?_
  have hunicode := Registry.lookup_congr (h (.unicode, callee) (List.mem_singleton_self _))
  simp only [lookupReference, hunicode]

theorem Html.reads_renderEachReference :
    Render.Reads renderEachReference callee fun _ => [(.unicode, callee)] := by
  refine Render.reads_ofKey callee fun reg reg' r h peers peers' key => ?_
  have hunicode := Registry.lookup_congr (h (.unicode, callee) (List.mem_singleton_self _))
  simp only [lookupEachReference, hunicode]

end

namespace Backend

/-- The renderer of every built-in group reads tables under the name that calls give it and those
that fractions are built from. Under the name of the group and in its representation all of them are
built-in tables. -/
theorem reads_definitions (r : Representation) :
    ∀ d ∈ definitions r, ∃ tables : Text → Representation → List (Representation × Text),
      (∀ callee, d.render.Reads callee (tables callee)) ∧
      (∀ callee r', ∀ t ∈ tables callee r', t.2 = callee ∨ t.2 ∈ Unicode.borrowedTables) ∧
      ∀ t ∈ tables d.name r, brings t.1 t.2 = true := by
  have hnone : ∀ {render : Render} {name : Text}, (∀ callee, render.Reads callee fun _ => []) →
      ∃ tables : Text → Representation → List (Representation × Text),
        (∀ callee, render.Reads callee (tables callee)) ∧
        (∀ callee r', ∀ t ∈ tables callee r', t.2 = callee ∨ t.2 ∈ Unicode.borrowedTables) ∧
        ∀ t ∈ tables name r, brings t.1 t.2 = true :=
    fun h => ⟨_, h, fun _ _ => List.forall_mem_nil _, List.forall_mem_nil _⟩
  have hone : ∀ {render : Render} {name : Text} (place : Representation → Representation),
      (∀ callee, render.Reads callee fun r => [(place r, callee)]) →
      brings (place r) name = true →
      ∃ tables : Text → Representation → List (Representation × Text),
        (∀ callee, render.Reads callee (tables callee)) ∧
        (∀ callee r', ∀ t ∈ tables callee r', t.2 = callee ∨ t.2 ∈ Unicode.borrowedTables) ∧
        ∀ t ∈ tables name r, brings t.1 t.2 = true :=
    fun _ h hbrings => ⟨_, h, fun _ _ => List.forall_mem_singleton.mpr (.inl rfl),
      List.forall_mem_singleton.mpr hbrings⟩
  cases r with
  | plain =>
      simp only [definitions, Plain.definitions, List.forall_mem_cons]
      exact ⟨hone id Render.reads_lookupEach (by decide), hnone fun _ => Render.reads_of_calls _ _,
        hone id Render.reads_lookup (by decide), hone id Plain.reads_renderMath (by decide),
        hone id Render.reads_lookupEach (by decide), hnone fun _ => Render.reads_of_calls _ _,
        hnone fun _ => Render.reads_of_calls _ _, List.forall_mem_nil _⟩
  | unicode =>
      simp only [definitions, Unicode.definitions, List.forall_mem_cons]
      refine ⟨hone id Render.reads_lookupEach (by decide), ?_,
        hone id Render.reads_lookup (by decide), hone id Render.reads_lookup (by decide),
        hone id Render.reads_lookupEach (by decide), hone id Render.reads_lookupEach (by decide),
        hone id Render.reads_lookupEach (by decide), List.forall_mem_nil _⟩
      refine ⟨_, Unicode.reads_renderFraction, ?_, by decide⟩
      intro callee r' t ht
      rcases List.mem_cons.mp ht with rfl | ht
      · exact .inl rfl
      · obtain ⟨id, hid, rfl⟩ := List.mem_map.mp ht
        exact .inr hid
  | html =>
      simp only [definitions, Html.definitions, List.forall_mem_cons]
      exact ⟨hone (fun _ => .unicode) Html.reads_renderEachReference (by decide),
        hnone fun _ => Render.reads_of_calls _ _, hone id Render.reads_lookup (by decide),
        hone (fun _ => .unicode) Html.reads_renderReference (by decide),
        hone (fun _ => .unicode) Html.reads_renderEachReference (by decide),
        hnone fun _ => Render.reads_of_calls _ _, hnone fun _ => Render.reads_of_calls _ _,
        List.forall_mem_nil _⟩
  | latex =>
      simp only [definitions, Latex.definitions, List.forall_mem_cons]
      exact ⟨hnone fun _ => Render.reads_of_calls _ _, hnone fun _ => Render.reads_of_calls _ _,
        hone id Render.reads_lookup (by decide), hone id Render.reads_lookup (by decide),
        hnone fun _ => Render.reads_of_calls _ _, hnone fun _ => Render.reads_of_calls _ _,
        hnone fun _ => Render.reads_of_calls _ _, List.forall_mem_nil _⟩

end Backend

/-- A renderer gives the calls of a group the same results whatever tables there are under an id,
and whatever other backends say. -/
def Render.Ignores (render : Render) (callee id : Text) : Prop :=
  ∀ {reg reg' : Registry}, reg.AgreesOff id reg' → ∀ r peers peers' keys texts,
    render ⟨reg, r, peers⟩ ⟨callee, keys, texts⟩ = render ⟨reg', r, peers'⟩ ⟨callee, keys, texts⟩

/-- The renderer reads tables under the name that calls give it, and those that fractions are built
from. -/
def Render.Local (render : Render) : Prop :=
  ∀ callee id, callee ≠ id → id ∉ Unicode.borrowedTables → render.Ignores callee id

/-- A renderer that reads tables of these names alone is local. -/
theorem Render.local_of_reads {render : Render}
    {tables : Text → Representation → List (Representation × Text)}
    (h : ∀ callee, render.Reads callee (tables callee))
    (htables : ∀ callee r, ∀ t ∈ tables callee r, t.2 = callee ∨ t.2 ∈ Unicode.borrowedTables) :
    render.Local := by
  intro callee id hcallee hid reg reg' hreg r
  refine h callee reg reg' r ?_
  intro t ht
  refine hreg.table? t.1 t.2 ?_
  rintro rfl
  rcases htables callee r t ht with hown | hborrowed
  · exact hcallee hown.symm
  · exact hid hborrowed

theorem Render.local_lookup : Render.Local .lookup :=
  local_of_reads reads_lookup fun _ _ => List.forall_mem_singleton.mpr (.inl rfl)

/-- The renderers of all built-in groups are local. -/
theorem Backend.local_definitions (r : Representation) : ∀ d ∈ definitions r, d.render.Local := by
  intro d hd
  obtain ⟨tables, hreads, htables, -⟩ := reads_definitions r d hd
  exact Render.local_of_reads hreads htables

variable {id : Text}

/-! ## Backends -/

namespace Backend

/-- All renderers of a backend give the same results whatever tables there are under an id. -/
def Ignores (b : Backend) (id : Text) : Prop :=
  b.AllGroups fun callee group => group.render.Ignores callee id

/-- A backend means the same by its calls over two registries if its renderers give the same results
over both, whatever other backends say, and the same texts are marks. -/
theorem target_congr {b : Backend} {reg reg' : Registry} {peers peers' : Representation → Peer}
    (hrender : b.AllGroups fun callee group => ∀ keys texts,
      group.render ⟨reg, b.representation, peers⟩ ⟨callee, keys, texts⟩ =
        group.render ⟨reg', b.representation, peers'⟩ ⟨callee, keys, texts⟩)
    (hmarks : reg.isMark .latex = reg'.isMark .latex) :
    b.target reg peers = b.target reg' peers' := by
  have hcalls : b.invokeBy (fun group => group.render ⟨reg, b.representation, peers⟩) =
      b.invokeBy fun group => group.render ⟨reg', b.representation, peers'⟩ := by
    funext ⟨callee, keys, texts⟩
    exact invokeBy_congr rfl rfl fun group hgroup => hrender callee group hgroup keys texts
  have hpass : ∀ rendered fragments,
      b.translate reg rendered fragments = b.translate reg' rendered fragments := by
    intro rendered fragments
    rw [translate, translate, hmarks]
  simp only [target, peer, peerBy, hcalls, hpass]

/-- A change to tables that the renderers ignore is no change to the target. -/
theorem Ignores.target_eq {b : Backend} (h : b.Ignores id) {reg reg' : Registry}
    (hreg : reg.AgreesOff id reg') (peers peers' : Representation → Peer) :
    b.target reg peers = b.target reg' peers' :=
  target_congr (fun callee group hgroup => h callee group hgroup hreg _ _ _) (hreg.isMark .latex)

end Backend

/-! ## Engines -/

/-- Adding a group to another backend, together with a table that the renderers ignore, is no change
to the target. -/
theorem Backend.Ignores.target_define {e : Engine} {r r' : Representation} {d : Definition}
    (h : (e.backend r).Ignores d.name) (hr : r ≠ r') : (e.define r' d).target r = e.target r := by
  rw [Engine.target, Engine.backend_define_of_ne e r' r d hr]
  exact (h.target_eq (d.agreesOff_install r' e.registry) _ _).symm

namespace Engine

/-- All renderers of an engine are local, and the built-in groups are there. -/
structure Local (e : Engine) : Prop where
  groups : e.AllGroups fun _ _ group => group.render.Local
  builtIn : ∀ r, ∀ d ∈ Backend.definitions r, (e.backend r).hasGroup d.name = true

/-- A new engine is local. -/
theorem local_create (strict : Bool) (reg : Registry) : (create strict reg).Local := by
  refine ⟨allGroups_create (fun r d hd => Backend.local_definitions r d hd) strict reg, ?_⟩
  intro r d hd
  rw [backend_create]
  exact Backend.hasGroup_standard strict hd

/-- Adding groups of glossaries keeps an engine local. -/
theorem Local.withGlossaries {e : Engine} (h : e.Local) (gs : List Glossary) :
    (e.withGlossaries gs).Local := by
  refine withGlossaries_induction (fun g _ e r mapping he _ _ => ?_) h
  refine ⟨he.groups.define Render.local_lookup, ?_⟩
  refine forall_backend_define
    (P := fun r b => ∀ d ∈ Backend.definitions r, b.hasGroup d.name = true) he.builtIn ?_
  intro d hd
  rw [Backend.hasGroup_define]
  exact .inr (he.builtIn r d hd)

/-- Changes to the registry keep an engine local. -/
theorem Local.change {e : Engine} (h : e.Local) (changes : List Registry.Change) :
    (e.change changes).Local :=
  ⟨h.groups, h.builtIn⟩

/-- The renderers of a local engine ignore the tables under a name that is no group's. -/
theorem Local.ignores {e : Engine} (h : e.Local)
    (hid : ∀ r, (e.backend r).hasGroup id = false) (r : Representation) :
    (e.backend r).Ignores id := by
  intro callee group hgroup
  refine h.groups r callee group hgroup callee id ?_ ?_
  · rintro rfl
    have hcallee := Backend.hasGroup_iff.mpr ⟨group, hgroup⟩
    rw [hid r] at hcallee
    cases hcallee
  -- the tables that fractions are built from are those of groups
  · intro hborrowed
    have hnames : ∀ name ∈ Unicode.borrowedTables, ∃ d ∈ Backend.definitions .unicode,
        d.name = name := by
      decide
    obtain ⟨d, hd, rfl⟩ := hnames id hborrowed
    have hgroup := h.builtIn .unicode d hd
    rw [hid .unicode] at hgroup
    cases hgroup

end Engine

end Sigil
