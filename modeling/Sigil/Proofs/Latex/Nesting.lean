import Mathlib.Data.List.TakeWhile
import Sigil.Proofs.Backend.LastPass
import Sigil.Proofs.Engine.Characters
import Sigil.Proofs.Engine.Concatenation
import Sigil.Proofs.Engine.Nesting
import Sigil.Proofs.Latex.Braces

/-!
# Accents in a subscript

The last pass of LaTeX puts the marks between calls in order, and those in an argument stay behind
what they decorate. So a subscript contains the output of an expression where no mark is moved
(`Latex.reorder_eq_self`), and nowhere else: with its marks in order a group is written differently,
and not shorter (`Latex.Marked.text_of_marks_ne_nil`), and among texts that are not shorter no
difference makes up for another one (`Latex.mapPoints_reorder_eq_iff`). The result for the engine is
`Engine.latex_subscript_of_source`.
-/

namespace Sigil

namespace Latex

open CodeUnit (leftBrace backslash)

variable {isMark : Text → Bool}

/-! ## Output without marks in it -/

/-- A mark stands behind another fragment, over which it is moved. -/
def MovesMark (isMark : Text → Bool) (fragments : List Fragment) : Prop :=
  ∃ fragment ∈ fragments.tail, isMarkCall isMark fragment = true

instance (isMark : Text → Bool) (fragments : List Fragment) :
    Decidable (MovesMark isMark fragments) :=
  inferInstanceAs (Decidable (∃ fragment ∈ fragments.tail, _))

/-- Where no mark is moved, the fragments are in order as they are. -/
theorem reorder_eq_self {fragments : List Fragment} (h : ¬MovesMark isMark fragments) :
    reorder isMark fragments = fragments := by
  have hrest : ∀ (rest ordered : List Fragment),
      (∀ fragment ∈ rest, isMarkCall isMark fragment ≠ true) →
        rest.foldl (place isMark) ordered = ordered ++ rest := by
    intro rest
    induction rest with
    | nil => exact fun ordered _ => (List.append_nil ordered).symm
    | cons fragment rest ih =>
        intro ordered hrest
        rw [List.forall_mem_cons] at hrest
        have hplace : place isMark ordered fragment = ordered ++ [fragment] :=
          if_neg fun hmark => hrest.1 (isMarkCall_iff.mpr hmark)
        rw [List.foldl_cons, hplace, ih _ hrest.2, List.append_assoc]
        rfl
  cases fragments with
  | nil => rfl
  | cons first rest =>
      have hfirst : place isMark [] first = [first] := by
        unfold place
        split <;> rfl
      rw [reorder, List.foldl_cons, hfirst,
        hrest rest [first] fun fragment hmem hmark => h ⟨fragment, hmem, hmark⟩]
      rfl

/-- Fragments without text are written as nothing, since there is no mark among them. -/
theorem translate_eq_nil (hmacros : MarksAreMacros isMark) {fragments : List Fragment}
    (h : Fragment.concat fragments = []) : translate isMark fragments = [] := by
  have hmoves : ¬MovesMark isMark fragments := by
    rintro ⟨fragment, hfragment, hmark⟩
    have htext := List.flatMap_eq_nil_iff.mp h fragment (List.mem_of_mem_tail hfragment)
    have hhead := hmacros _ (isMarkCall_iff.mp hmark).2
    rw [htext] at hhead
    cases hhead
  rw [translate, reorder_eq_self hmoves, h]
  rfl

/-! ## Output with marks in it -/

/-- The marks of a group are marks. -/
theorem isMark_of_mem_group {fragments : List Fragment} {marked : Marked}
    (h : marked ∈ group isMark fragments) : ∀ mark ∈ marked.marks, isMark mark = true := by
  fun_induction group isMark fragments with
  | case1 => cases h
  | case2 base rest ih =>
      rcases List.mem_cons.mp h with rfl | h
      · intro mark hmark
        obtain ⟨fragment, hfragment, rfl⟩ := List.mem_map.mp hmark
        exact (isMarkCall_iff.mp (List.all_eq_true.mp List.all_takeWhile _ hfragment)).2
      · exact ih h

/-- The fragments of a group are among all of them. -/
theorem mem_of_mem_group {fragments : List Fragment} {marked : Marked}
    (h : marked ∈ group isMark fragments) {fragment : Fragment}
    (hfragment : fragment ∈ marked.fragments) : fragment ∈ fragments := by
  have hmem := List.mem_flatMap.mpr ⟨marked, h, hfragment⟩
  rwa [flatMap_fragments_group] at hmem

/-- The groups have the text of all fragments. -/
theorem flatMap_concat_group (fragments : List Fragment) :
    ((group isMark fragments).flatMap fun marked => Fragment.concat marked.fragments) =
      Fragment.concat fragments := by
  have hall : (group isMark fragments).flatMap Marked.fragments = fragments :=
    flatMap_fragments_group fragments
  conv_rhs => rw [← hall]
  exact List.flatMap_assoc.symm

/-- Where a mark is moved, a group has marks. -/
theorem MovesMark.exists_marks {fragments : List Fragment} (h : MovesMark isMark fragments) :
    ∃ marked ∈ group isMark fragments, marked.marks ≠ [] := by
  fun_induction group isMark fragments with
  | case1 =>
      obtain ⟨fragment, hfragment, -⟩ := h
      cases hfragment
  | case2 base rest ih =>
      cases hmarks : rest.takeWhile (isMarkCall isMark) with
      | cons mark marks =>
          refine ⟨_, List.mem_cons_self .., ?_⟩
          exact List.cons_ne_nil _ _
      | nil =>
          have hrest : rest.dropWhile (isMarkCall isMark) = rest := by
            have hparts := List.takeWhile_append_dropWhile (p := isMarkCall isMark) (l := rest)
            rwa [hmarks] at hparts
          -- the base has no mark behind it, so the mark is moved over a later one
          have hmoves : MovesMark isMark rest := by
            obtain ⟨fragment, hfragment, hmark⟩ := h
            cases rest with
            | nil => cases hfragment
            | cons next rest =>
                rcases List.mem_cons.mp hfragment with rfl | hfragment
                · rw [List.takeWhile_cons_of_pos hmark] at hmarks
                  cases hmarks
                · exact ⟨fragment, hfragment, hmark⟩
          rw [hrest] at ih ⊢
          obtain ⟨marked, hmem, hne⟩ := ih hmoves
          exact ⟨marked, List.mem_cons_of_mem _ hmem, hne⟩

/-- The last pass leaves the marks as they are. -/
def MarksPass (isMark : Text → Bool) : Prop :=
  ∀ mark, isMark mark = true → mark.IsFixed translatePoint

theorem mapPoints_brace (t : Text) :
    Text.mapPoints translatePoint (brace t) = brace (t.mapPoints translatePoint) :=
  Text.IsFixed.mapPoints_enclose (by decide) t

/-- The last pass goes over a text with marks around it as over the text. -/
theorem MarksPass.mapPoints_nest (hpass : MarksPass isMark) {marks : List Text}
    (hmarks : ∀ mark ∈ marks, isMark mark = true) (inner : Text) :
    Text.mapPoints translatePoint (nest inner marks) =
      nest (inner.mapPoints translatePoint) marks := by
  induction marks generalizing inner with
  | nil => rfl
  | cons mark marks ih =>
      rw [List.forall_mem_cons] at hmarks
      show Text.mapPoints translatePoint (nest (mark ++ brace inner) marks) =
        nest (mark ++ brace (inner.mapPoints translatePoint)) marks
      rw [ih hmarks.2, (hpass mark hmarks.1).mapPoints_append, mapPoints_brace]

/-- Every mark comes with a pair of braces. -/
theorem length_nest (inner : Text) (marks : List Text) :
    (nest inner marks).length = inner.length + marks.flatten.length + 2 * marks.length := by
  induction marks generalizing inner with
  | nil => rfl
  | cons mark marks ih =>
      show (nest (mark ++ brace inner) marks).length = _
      have hbrace : (brace inner).length = inner.length + 2 := by
        show (leftBrace :: (inner ++ [CodeUnit.rightBrace])).length = _
        rw [List.length_cons, List.length_append, List.length_singleton]
      rw [ih, List.length_append, hbrace, List.flatten_cons, List.length_append, List.length_cons]
      omega

/-- A mark in front of a text begins with a backslash. -/
theorem MarksAreMacros.head?_append (hmacros : MarksAreMacros isMark) {mark : Text}
    (hmark : isMark mark = true) (t : Text) : (mark ++ t).head? = some backslash := by
  rw [List.head?_append, hmacros mark hmark, Option.some_or]

/-- So do marks around a text that does. -/
theorem MarksAreMacros.head?_nest (hmacros : MarksAreMacros isMark) {marks : List Text}
    (hmarks : ∀ mark ∈ marks, isMark mark = true) {inner : Text}
    (hinner : inner.head? = some backslash) : (nest inner marks).head? = some backslash := by
  induction marks generalizing inner with
  | nil => exact hinner
  | cons mark marks ih =>
      rw [List.forall_mem_cons] at hmarks
      exact ih hmarks.2 (hmacros.head?_append hmarks.1 (brace inner))

/-- A group as it is without being put in order. -/
theorem concat_fragments (marked : Marked) :
    Fragment.concat marked.fragments = marked.base.text ++ marked.marks.flatten := by
  rw [Marked.fragments, Fragment.concat, List.flatMap_cons, List.flatMap_map, List.flatMap_id']

theorem MarksPass.mapPoints_concat_fragments (hpass : MarksPass isMark) {marked : Marked}
    (hmarks : ∀ mark ∈ marked.marks, isMark mark = true) :
    (Fragment.concat marked.fragments).mapPoints translatePoint =
      marked.base.text.mapPoints translatePoint ++ marked.marks.flatten := by
  have hfixed : Text.IsFixed translatePoint ([] ++ marked.marks.flatten) := by
    intro u hu
    obtain ⟨mark, hmark, hu⟩ := List.mem_flatten.mp hu
    exact hpass mark (hmarks mark hmark) u hu
  rw [concat_fragments]
  exact Text.IsFixed.mapPoints_enclose hfixed _

/-- A group without marks is written as it is. -/
theorem Marked.text_of_marks_eq_nil {marked : Marked} (h : marked.marks = []) :
    marked.text = Fragment.concat marked.fragments := by
  obtain ⟨⟨kind, text⟩, marks⟩ := marked
  cases h
  rw [concat_fragments, List.flatten_nil, List.append_nil]
  cases kind <;> rfl

/-- The marks of a group go around the end of its base, unless the base is a call that begins with a
brace. -/
theorem Marked.exists_text_eq {marked : Marked} (hwhole : marked.base.text.IsWhole)
    (hliteral : marked.base.kind = .literal → marked.base.text ≠ [])
    (hcall : marked.base.kind = .call → marked.base.text.head? ≠ some leftBrace)
    (hne : marked.marks ≠ []) :
    ∃ front last, marked.base.text = front ++ last ∧ last.IsWhole ∧
      marked.text = front ++ nest last marked.marks := by
  obtain ⟨⟨kind, text⟩, marks⟩ := marked
  cases marks with
  | nil => exact absurd rfl hne
  | cons mark marks =>
      cases kind with
      | call =>
          refine ⟨[], text, rfl, hwhole, ?_⟩
          show nest (mark ++ if text.head? = some leftBrace then text else brace text) marks = _
          rw [if_neg (hcall rfl)]
          rfl
      | literal =>
          have hflatten := text.flatten_characters
          rcases List.eq_nil_or_concat text.characters with hnone | ⟨init, last, hsome⟩
          · rw [hnone] at hflatten
            exact absurd hflatten.symm (hliteral rfl)
          · rw [List.concat_eq_append] at hsome
            refine ⟨init.flatten, last, ?_, ?_, ?_⟩
            · rw [← hflatten, hsome, List.flatten_append, List.flatten_singleton]
            · refine hwhole.characters last ?_
              rw [hsome]
              exact List.mem_append_right _ (List.mem_singleton_self last)
            · rw [Marked.text, hsome, List.getLast?_concat, List.dropLast_concat]

/-- Around a call that begins with a brace the first mark brings no braces. But then the group
begins with a mark in order, and with the brace as it is. -/
theorem Marked.text_of_brace (hmacros : MarksAreMacros isMark) (hpass : MarksPass isMark)
    {marked : Marked} (hmarks : ∀ mark ∈ marked.marks, isMark mark = true)
    (hne : marked.marks ≠ []) (hkind : marked.base.kind = .call)
    (hhead : marked.base.text.head? = some leftBrace) :
    ((Fragment.concat marked.fragments).mapPoints translatePoint).length ≤
        (marked.text.mapPoints translatePoint).length ∧
      (Fragment.concat marked.fragments).mapPoints translatePoint ≠
        marked.text.mapPoints translatePoint := by
  rw [hpass.mapPoints_concat_fragments hmarks]
  obtain ⟨⟨kind, text⟩, marks⟩ := marked
  cases hkind
  cases marks with
  | nil => exact absurd rfl hne
  | cons mark marks =>
      obtain ⟨hmark, hbehind⟩ := List.forall_mem_cons.mp hmarks
      have htext : (Marked.text ⟨⟨.call, text⟩, mark :: marks⟩).mapPoints translatePoint =
          nest (mark ++ text.mapPoints translatePoint) marks := by
        show Text.mapPoints translatePoint
          (nest (mark ++ if text.head? = some leftBrace then text else brace text) marks) = _
        rw [if_pos hhead, hpass.mapPoints_nest hbehind, (hpass _ hmark).mapPoints_append]
      rw [htext, length_nest]
      refine ⟨?_, ?_⟩
      · simp only [List.length_append, List.flatten_cons]
        omega
      · intro heq
        obtain ⟨rest, rfl⟩ := List.head?_eq_some_iff.mp hhead
        have hbrace : Text.IsFixed translatePoint [leftBrace] := by decide
        have hheads := congrArg List.head? (hbrace.mapPoints_append rest ▸ heq)
        rw [hmacros.head?_nest hbehind (hmacros.head?_append hmark _)] at hheads
        cases hheads

/-- Around another base every mark brings braces. -/
theorem Marked.length_lt_text (hmacros : MarksAreMacros isMark) (hpass : MarksPass isMark)
    {marked : Marked} (hmarks : ∀ mark ∈ marked.marks, isMark mark = true)
    (hwhole : marked.base.text.IsWhole)
    (hliteral : marked.base.kind = .literal → marked.base.text ≠ [])
    (hcall : marked.base.kind = .call → marked.base.text.head? ≠ some leftBrace)
    (hne : marked.marks ≠ []) :
    ((Fragment.concat marked.fragments).mapPoints translatePoint).length <
      (marked.text.mapPoints translatePoint).length := by
  obtain ⟨front, last, hbase, hlast, htext⟩ := exists_text_eq hwhole hliteral hcall hne
  have hnest : ∀ u ∈ (nest last marked.marks).head?, u.isTrailing = false := by
    obtain ⟨mark, marks, heq⟩ := List.exists_cons_of_ne_nil hne
    rw [heq, List.forall_mem_cons] at hmarks
    intro u hu
    rw [heq, nest, List.foldl_cons, ← nest,
      hmacros.head?_nest hmarks.2 (hmacros.head?_append hmarks.1 _)] at hu
    cases hu
    decide
  have hlength := List.length_pos_iff.mpr hne
  rw [hpass.mapPoints_concat_fragments hmarks, hbase, htext,
    Text.mapPoints_append _ _ hlast.isTrailing_head, Text.mapPoints_append _ _ hnest,
    hpass.mapPoints_nest hmarks]
  simp only [List.length_append, length_nest]
  omega

/-- A group with marks is written differently in order, and not shorter. -/
theorem Marked.text_of_marks_ne_nil (hmacros : MarksAreMacros isMark) (hpass : MarksPass isMark)
    {marked : Marked} (hmarks : ∀ mark ∈ marked.marks, isMark mark = true)
    (hwhole : marked.base.text.IsWhole)
    (hliteral : marked.base.kind = .literal → marked.base.text ≠ []) (hne : marked.marks ≠ []) :
    ((Fragment.concat marked.fragments).mapPoints translatePoint).length ≤
        (marked.text.mapPoints translatePoint).length ∧
      (Fragment.concat marked.fragments).mapPoints translatePoint ≠
        marked.text.mapPoints translatePoint := by
  by_cases hbrace : marked.base.kind = .call ∧ marked.base.text.head? = some leftBrace
  · exact text_of_brace hmacros hpass hmarks hne hbrace.1 hbrace.2
  · have hlonger := length_lt_text hmacros hpass hmarks hwhole hliteral
      (fun hkind hhead => hbrace ⟨hkind, hhead⟩) hne
    exact ⟨Nat.le_of_lt hlonger, fun heq => Nat.ne_of_lt hlonger (congrArg List.length heq)⟩

/-! ## All groups -/

/-- A group is the only one of its fragments. -/
theorem group_fragments {marked : Marked} (hmarks : ∀ mark ∈ marked.marks, isMark mark = true) :
    group isMark marked.fragments = [marked] := by
  have hcalls : ∀ fragment ∈ marked.marks.map (fun mark => (⟨.call, mark⟩ : Fragment)),
      isMarkCall isMark fragment = true := by
    intro fragment hfragment
    obtain ⟨mark, hmark, rfl⟩ := List.mem_map.mp hfragment
    exact isMarkCall_iff.mpr ⟨rfl, hmarks mark hmark⟩
  have htexts : ∀ marks : List Text,
      (marks.map fun mark => (⟨.call, mark⟩ : Fragment)).map Fragment.text = marks := by
    intro marks
    rw [List.map_map]
    exact List.map_id marks
  rw [Marked.fragments, group, List.takeWhile_eq_self_iff.mpr hcalls,
    List.dropWhile_eq_nil_iff.mpr hcalls, htexts, group]

theorem Marked.isWhole_text (hmacros : MarksAreMacros isMark) {marked : Marked}
    (hmarks : ∀ mark ∈ marked.marks, isMark mark = true)
    (hwhole : ∀ fragment ∈ marked.fragments, fragment.text.IsWhole) : marked.text.IsWhole := by
  have hreorder := concat_reorder hmacros marked.fragments
  rw [group_fragments hmarks, List.flatMap_singleton] at hreorder
  rw [← hreorder]
  exact Fragment.isWhole_concat (isWhole_reorder isMark hwhole)

/-- Whole texts one after another go through the last pass one by one. -/
theorem mapPoints_flatMap {α : Type} {f : α → Text} {xs : List α} (h : ∀ x ∈ xs, (f x).IsWhole) :
    Text.mapPoints translatePoint (xs.flatMap f) =
      xs.flatMap fun x => (f x).mapPoints translatePoint := by
  induction xs with
  | nil => rfl
  | cons x xs ih =>
      rw [List.forall_mem_cons] at h
      have hrest : Text.IsWhole (xs.flatMap f) := by
        refine Text.IsWhole.flatten fun t ht => ?_
        obtain ⟨x, hx, rfl⟩ := List.mem_map.mp ht
        exact h.2 x hx
      rw [List.flatMap_cons, Text.mapPoints_append _ _ hrest.isTrailing_head, ih h.2,
        List.flatMap_cons]

/-- Lists put together are no longer than others if none of them is. -/
theorem length_flatMap_le {α β : Type} {f g : α → List β} {xs : List α}
    (h : ∀ x ∈ xs, (f x).length ≤ (g x).length) :
    (xs.flatMap f).length ≤ (xs.flatMap g).length := by
  induction xs with
  | nil => exact Nat.le_refl _
  | cons x xs ih =>
      rw [List.forall_mem_cons] at h
      rw [List.flatMap_cons, List.flatMap_cons, List.length_append, List.length_append]
      exact Nat.add_le_add h.1 (ih h.2)

/-- Lists that are equal when put together are equal one by one, if none of the first ones is
longer. -/
theorem eq_of_flatMap_eq {α β : Type} {f g : α → List β} {xs : List α}
    (hlength : ∀ x ∈ xs, (f x).length ≤ (g x).length) (h : xs.flatMap f = xs.flatMap g) :
    ∀ x ∈ xs, f x = g x := by
  induction xs with
  | nil => exact fun x hx => by cases hx
  | cons x xs ih =>
      rw [List.forall_mem_cons] at hlength ⊢
      rw [List.flatMap_cons, List.flatMap_cons] at h
      have hrest := length_flatMap_le hlength.2
      have htotal := congrArg List.length h
      rw [List.length_append, List.length_append] at htotal
      obtain ⟨hfirst, hothers⟩ := List.append_inj h (by omega)
      exact ⟨hfirst, ih hlength.2 hothers⟩

/-- Putting the fragments in order makes no difference to the output exactly where no mark is
moved. -/
theorem mapPoints_reorder_eq_iff (hmacros : MarksAreMacros isMark) (hpass : MarksPass isMark)
    {fragments : List Fragment} (hwhole : ∀ fragment ∈ fragments, fragment.text.IsWhole)
    (hliteral : ∀ fragment ∈ fragments, fragment.kind = .literal → fragment.text ≠ []) :
    (Fragment.concat fragments).mapPoints translatePoint =
        (Fragment.concat (reorder isMark fragments)).mapPoints translatePoint ↔
      ¬MovesMark isMark fragments := by
  constructor
  · intro heq hmoves
    obtain ⟨marked, hmarked, hne⟩ := hmoves.exists_marks
    have hgroup : ∀ marked ∈ group isMark fragments,
        ∀ fragment ∈ marked.fragments, fragment.text.IsWhole :=
      fun marked hmarked fragment hfragment =>
        hwhole fragment (mem_of_mem_group hmarked hfragment)
    have hdiffers : ∀ {marked : Marked}, marked ∈ group isMark fragments → marked.marks ≠ [] → _ :=
      fun {marked} hmarked hne =>
        have hbase := mem_of_mem_group hmarked (List.mem_cons_self ..)
        marked.text_of_marks_ne_nil hmacros hpass (isMark_of_mem_group hmarked)
          (hwhole _ hbase) (hliteral _ hbase) hne
    rw [concat_reorder hmacros, ← flatMap_concat_group,
      mapPoints_flatMap fun marked hmarked => Fragment.isWhole_concat (hgroup marked hmarked),
      mapPoints_flatMap fun marked hmarked =>
        marked.isWhole_text hmacros (isMark_of_mem_group hmarked) (hgroup marked hmarked)] at heq
    refine (hdiffers hmarked hne).2 (eq_of_flatMap_eq ?_ heq marked hmarked)
    intro marked hmarked
    by_cases hnone : marked.marks = []
    · rw [Marked.text_of_marks_eq_nil hnone]
    · exact (hdiffers hmarked hnone).1
  · intro hmoves
    rw [reorder_eq_self hmoves]

end Latex

namespace Engine

/-- Glossaries change no marks. -/
theorem isMark_withGlossaries (strict : Bool) (reg : Registry) (gs : List Glossary) :
    ((create strict reg).withGlossaries gs).registry.isMark .latex =
      (create strict reg).registry.isMark .latex := by
  refine withGlossaries_induction
    (P := fun e => e.registry.isMark .latex = (create strict reg).registry.isMark .latex) ?_ rfl
  intro g _ e r mapping he _ _
  rw [isMark_define, he]

/-- The last pass leaves the accent macros as they are. -/
theorem marksPass_create (strict : Bool) (reg : Registry) :
    Latex.MarksPass ((create strict reg).registry.isMark .latex) := by
  have hmarks : ∀ mark ∈ Symbols.Latex.marks, mark.IsFixed Latex.translatePoint := by decide
  intro mark hmark
  exact hmarks mark ((isMark_create_latex_iff strict reg).mp hmark)

/-- An engine with glossaries of the library, whatever its registry held before, evaluates a source
without halves of pairs to fragments without them. -/
theorem isWhole_of_evaluate {strict : Bool} {reg : Registry} {gs : List Glossary}
    (hgs : gs ⊆ Symbols.glossaries) {r : Representation} {lenient : Bool} {source : Text}
    {fragments : List Fragment} (hsource : source.wellFormed = true)
    (heval : (((create strict reg).withGlossaries gs).target r).evaluate ⟨lenient, id⟩ source =
      .ok fragments) : ∀ fragment ∈ fragments, fragment.text.IsWhole :=
  (keepsWhole_target strict reg hgs r (.inl rfl)).evaluate (Text.wellFormed_iff.mp hsource) heval

/-- An engine with glossaries of the library, whatever its registry held before, writes an
expression in a LaTeX subscript or superscript as the last pass writes it with all marks where they
are. That is how it writes the expression by itself if no accent macro stands behind another
fragment, and, for a source without halves of pairs, only then: by itself the expression has each of
them in front of what it decorates. -/
theorem latex_subscript_of_source (strict : Bool) (reg : Registry) {gs : List Glossary}
    (hgs : gs ⊆ Symbols.glossaries) {wish : Option Bool} {source out : Text}
    (hplain : source.literalText.IsPlain) (hout : out ≠ []) :
    let e := (create strict reg).withGlossaries gs
    let options : Options := { strict := wish }
    e.parse .latex source options = .ok out →
      ∃ fragments,
        (e.target .latex).evaluate (options.manner (e.target .latex)) source = .ok fragments ∧
        let inside : Text := (Fragment.concat fragments).mapPoints Latex.translatePoint
        e.parse .latex ("$sub(" ++ source ++ ")") options = .ok ("_\x7b" ++ inside ++ "\x7d") ∧
        e.parse .latex ("$sup(" ++ source ++ ")") options = .ok ("^\x7b" ++ inside ++ "\x7d") ∧
        (¬Latex.MovesMark (e.registry.isMark .latex) fragments → inside = out) ∧
        (source.wellFormed = true → inside = out →
          ¬Latex.MovesMark (e.registry.isMark .latex) fragments) := by
  intro e options h
  obtain ⟨fragments, heval, hresult⟩ := bind_eq_ok_iff.mp h
  cases hresult
  have houtput : ∀ fragments, (e.target .latex).output fragments =
      Latex.translate (e.registry.isMark .latex) fragments :=
    output_withGlossaries strict reg gs .latex
  have hmarks : e.registry.isMark .latex = (create strict reg).registry.isMark .latex :=
    isMark_withGlossaries strict reg gs
  have hmacros : Latex.MarksAreMacros (e.registry.isMark .latex) := by
    rw [hmarks]
    exact marksAreMacros_create strict reg
  have hpass : Latex.MarksPass (e.registry.isMark .latex) := by
    rw [hmarks]
    exact marksPass_create strict reg
  rw [houtput] at hout ⊢
  have hconcat : Fragment.concat fragments ≠ [] := by
    intro hnil
    rw [Latex.translate_eq_nil hmacros hnil] at hout
    exact hout rfl
  have hcall : ∀ {name description front back : Text},
      { name, description, render := .enclose front back } ∈ Latex.definitions →
        name.isName = true →
        (front ++ back).IsFixed Latex.translatePoint →
        e.parse .latex (Text.callWith name source) options =
          .ok (front ++ (Fragment.concat fragments).mapPoints Latex.translatePoint ++ back) :=
    fun hd hname hfixed =>
      parse_callWith hd hname (fun t => (houtput _).trans (Latex.translate_call _ t)) hfixed
        (.inl rfl) hplain heval hconcat
  refine ⟨fragments, heval, hcall (List.mem_of_getElem? (i := 5) rfl) rfl (by decide),
    hcall (List.mem_of_getElem? (i := 6) rfl) rfl (by decide), ?_, ?_⟩
  · intro hmoves
    rw [Latex.translate, Latex.reorder_eq_self hmoves]
  · intro hsource heq
    exact (Latex.mapPoints_reorder_eq_iff hmacros hpass (isWhole_of_evaluate hgs hsource heval)
      (Target.literal_ne_nil_of_evaluate heval)).mp heq

/-- A mark with nothing in front of it is not moved. -/
theorem latex_subscript_of_source_sample :
    let e := (create false .empty).withGlossaries [Symbols.physics]
    let options : Options := { strict := some true }
    let source : Text := "$math(hat)é $frac(1,$phy(G))"
    let out : Text := "\\^\\unicode\x7be9\x7d\\ \\frac\x7b1\x7d\x7bG\x7d"
    [Symbols.physics] ⊆ Symbols.glossaries ∧ source.literalText.IsPlain ∧ out ≠ [] ∧
      e.parse .latex source options = .ok out ∧
      e.parse .latex ("$sub(" ++ source ++ ")") options = .ok ("_\x7b" ++ out ++ "\x7d") ∧
      e.parse .latex ("$sup(" ++ source ++ ")") options = .ok ("^\x7b" ++ out ++ "\x7d") := by
  intro e options source out
  have hgs : [Symbols.physics] ⊆ Symbols.glossaries := List.cons_subset_cons _ (List.nil_subset _)
  have hplain : source.literalText.IsPlain := by decide
  have hout : out ≠ [] := by decide
  have hresults : (e.parse .latex source options).toOption = some out ∧
      ((e.target .latex).evaluate ⟨true, id⟩ source).toOption =
        some [⟨.call, "\\^"⟩, ⟨.literal, "é "⟩, ⟨.call, "\\frac\x7b1\x7d\x7bG\x7d"⟩] ∧
      ¬Latex.MovesMark (e.registry.isMark .latex)
        [⟨.call, "\\^"⟩, ⟨.literal, "é "⟩, ⟨.call, "\\frac\x7b1\x7d\x7bG\x7d"⟩] := by
    decide +kernel
  obtain ⟨hresult, hfragments, hmoves⟩ := hresults
  have hparse := eq_ok_of_toOption hresult
  obtain ⟨fragments, heval, hsub, hsup, hinside, -⟩ :=
    latex_subscript_of_source false .empty hgs hplain hout hparse
  cases (eq_ok_of_toOption hfragments).symm.trans heval
  rw [hinside hmoves] at hsub hsup
  exact ⟨hgs, hplain, hout, hparse, hsub, hsup⟩

/-- In a subscript an accent stays behind what it decorates by itself. -/
theorem latex_subscript_leaves_accent :
    let e := create false .empty
    let source : Text := "x$math(bar)"
    source.literalText.IsPlain ∧
      e.parse .latex source = .ok "\\bar\x7bx\x7d" ∧ Text.ofString "\\bar\x7bx\x7d" ≠ [] ∧
      e.parse .latex ("$sub(" ++ source ++ ")") = .ok "_\x7bx\\bar\x7d" ∧
      e.parse .latex ("$sub(" ++ source ++ ")") ≠ .ok ("_\x7b" ++ "\\bar\x7bx\x7d" ++ "\x7d") := by
  intro e source
  have hresults : (e.parse .latex source).toOption = some "\\bar\x7bx\x7d" ∧
      (e.parse .latex ("$sub(" ++ source ++ ")")).toOption = some "_\x7bx\\bar\x7d" := by
    decide +kernel
  have hcall := eq_ok_of_toOption hresults.2
  refine ⟨by decide, eq_ok_of_toOption hresults.1, by decide, hcall, ?_⟩
  rw [hcall]
  intro heq
  exact absurd (Except.ok.inj heq) (by decide)

end Engine

end Sigil
