import Sigil.Proofs.Backend.WellFormed
import Sigil.Proofs.Expression.Concatenation

/-!
# Output put together

The last pass over fragments that are put together writes the output of one part behind that of the
other (`Backend.output_joined`). Where it replaces code points one by one, no pair may be torn apart
at the seam. In LaTeX a mark reaches back over one fragment, so the fragments behind the seam are
put in order as they are by themselves, unless the first of them is a mark (`Latex.Continues`).
-/

namespace Sigil

open Text (IsWhole)

/-- Fragments that are put together have the text of both parts. -/
theorem Joined.concat {front back both : List Fragment}
    (h : Joined Fragment.ofLiteral front back both) :
    Fragment.concat both = Fragment.concat front ++ Fragment.concat back := by
  cases h with
  | apart => exact Fragment.concat_append front back
  | meet front t back ht' => simp [Fragment.concat]

namespace Latex

/-! ## Decorations -/

/-- A mark over literal text decorates the last character, and leaves the ones before it. -/
theorem exists_decorate_literal {t : Text} {init : List Text} {last : Text}
    (h : t.characters = init ++ [last]) (mark : Text) :
    ∃ front, decorate (.ofLiteral t) mark = front ++ [⟨.call, mark ++ brace last⟩] ∧
      Fragment.concat front = init.flatten := by
  simp only [decorate, h, List.getLast?_concat, List.dropLast_concat]
  split
  · rename_i hinit
    refine ⟨[], rfl, ?_⟩
    rw [hinit]
    rfl
  · exact ⟨[.ofLiteral init.flatten], rfl, Fragment.concat_singleton _⟩

/-- Decorating a fragment leaves a decorated one at the end. -/
theorem exists_decorate (base : Fragment) (mark : Text) :
    ∃ front last, decorate base mark = front ++ [last] := by
  obtain ⟨kind, text⟩ := base
  cases kind with
  | call => exact ⟨[], _, rfl⟩
  | literal =>
      rcases List.eq_nil_or_concat text.characters with hnone | ⟨init, last, hsome⟩
      · refine ⟨[], ⟨.call, mark⟩, ?_⟩
        simp only [decorate, hnone, List.getLast?_nil]
        rfl
      · rw [List.concat_eq_append] at hsome
        obtain ⟨front, hdecorate, -⟩ := exists_decorate_literal hsome mark
        exact ⟨front, _, hdecorate⟩

/-- Whole marks over whole fragments are whole. -/
theorem isWhole_decorate {base : Fragment} (hbase : base.text.IsWhole) {mark : Text}
    (hmark : mark.IsWhole) : ∀ fragment ∈ decorate base mark, fragment.text.IsWhole := by
  obtain ⟨kind, text⟩ := base
  cases kind with
  | call =>
      refine List.forall_mem_singleton.mpr (hmark.append ?_)
      unfold braceOnce
      split
      · exact hbase
      · exact isWhole_brace hbase
  | literal =>
      have hcharacters := hbase.characters
      simp only [decorate]
      split
      · exact List.forall_mem_singleton.mpr hmark
      · rename_i last hlast
        have hdecorated : (mark ++ brace last).IsWhole :=
          hmark.append (isWhole_brace (hcharacters last (List.mem_of_getLast? hlast)))
        split
        · exact List.forall_mem_singleton.mpr hdecorated
        · refine List.forall_mem_cons.mpr ⟨?_, List.forall_mem_singleton.mpr hdecorated⟩
          exact .flatten fun c hc => hcharacters c (List.dropLast_subset _ hc)

/-- Putting whole fragments in order leaves whole fragments. -/
theorem isWhole_reorder (isMark : Text → Bool) {fragments : List Fragment}
    (h : ∀ fragment ∈ fragments, fragment.text.IsWhole) :
    ∀ fragment ∈ reorder isMark fragments, fragment.text.IsWhole := by
  have hfold : ∀ ordered : List Fragment, (∀ fragment ∈ ordered, fragment.text.IsWhole) →
      ∀ fragment ∈ fragments.foldl (place isMark) ordered, fragment.text.IsWhole := by
    induction fragments with
    | nil => exact fun _ hordered => hordered
    | cons fragment rest ih =>
        rw [List.forall_mem_cons] at h
        intro ordered hordered
        refine ih h.2 (place isMark ordered fragment) ?_
        unfold place
        split
        · split
          · exact List.forall_mem_singleton.mpr h.1
          · rename_i base hbase
            refine List.forall_mem_append.mpr ⟨?_, isWhole_decorate ?_ h.1⟩
            · exact fun other hother => hordered other (List.dropLast_subset _ hother)
            · exact hordered base (List.mem_of_getLast? hbase)
        · exact List.forall_mem_append.mpr ⟨hordered, List.forall_mem_singleton.mpr h.1⟩
  exact hfold [] (List.forall_mem_nil _)

/-! ## Marks behind the seam -/

/-- One fragment is the other, or the other has more literal text in front. -/
inductive Extends : Text → Fragment → Fragment → Prop where
  | same (fragment : Fragment) : Extends [] fragment fragment
  | literal (more : Text) {t : Text} (ht : t ≠ []) (hwhole : t.IsWhole) :
      Extends more (.ofLiteral (more ++ t)) (.ofLiteral t)

variable {more : Text} {f g : Fragment}

theorem Extends.text_eq (h : Extends more f g) : f.text = more ++ g.text := by
  cases h <;> rfl

/-- A mark decorates both in the same way, since it decorates the last character of literal text. -/
theorem Extends.decorate (h : Extends more f g) (mark : Text) :
    ∃ front front' last, Latex.decorate f mark = front ++ [last] ∧
      Latex.decorate g mark = front' ++ [last] ∧
      Fragment.concat front = more ++ Fragment.concat front' := by
  cases h with
  | same =>
      obtain ⟨front, last, hdecorate⟩ := exists_decorate f mark
      exact ⟨front, front, last, hdecorate, hdecorate, rfl⟩
  | @literal more t ht hwhole =>
      have hne : t.characters ≠ [] := by
        intro hnone
        have hflatten := t.flatten_characters
        rw [hnone] at hflatten
        exact ht hflatten.symm
      obtain ⟨init, last, hlast⟩ := (List.eq_nil_or_concat t.characters).resolve_left hne
      rw [List.concat_eq_append] at hlast
      have hall : (more ++ t).characters = (more.characters ++ init) ++ [last] := by
        rw [List.append_assoc, ← hlast]
        simp only [Text.characters, Text.codePoints_append more hwhole.isTrailing_head,
          List.map_append]
      obtain ⟨front, hfront, hconcat⟩ := exists_decorate_literal hall mark
      obtain ⟨front', hfront', hconcat'⟩ := exists_decorate_literal hlast mark
      refine ⟨front, front', _, hfront, hfront', ?_⟩
      rw [hconcat, hconcat', List.flatten_append, Text.flatten_characters]

/-- Fragments in order go on behind a text as others do by themselves: the last of them is the last
of the others, or has more literal text in front, and the text makes up the difference. -/
def Continues (front : Text) (ordered ordered' : List Fragment) : Prop :=
  ∃ before before' more f g, ordered = before ++ [f] ∧ ordered' = before' ++ [g] ∧
    Extends more f g ∧ Fragment.concat before ++ more = front ++ Fragment.concat before'

variable {front : Text} {ordered ordered' : List Fragment} {isMark : Text → Bool}

theorem Continues.concat (h : Continues front ordered ordered') :
    Fragment.concat ordered = front ++ Fragment.concat ordered' := by
  obtain ⟨before, before', more, f, g, rfl, rfl, hextends, hbefore⟩ := h
  simp only [Fragment.concat_append, Fragment.concat_singleton]
  rw [hextends.text_eq, ← List.append_assoc, hbefore, List.append_assoc]

/-- The next fragment is added to both in the same way. -/
theorem Continues.place (h : Continues front ordered ordered') (isMark : Text → Bool)
    (fragment : Fragment) :
    Continues front (Latex.place isMark ordered fragment)
      (Latex.place isMark ordered' fragment) := by
  unfold Latex.place
  split
  · obtain ⟨before, before', more, f, g, rfl, rfl, hextends, hbefore⟩ := h
    obtain ⟨left, left', last, hleft, hleft', hconcat⟩ := hextends.decorate fragment.text
    simp only [List.getLast?_concat, List.dropLast_concat, hleft, hleft']
    refine ⟨before ++ left, before' ++ left', [], last, last, ?_, ?_, .same last, ?_⟩
    · rw [List.append_assoc]
    · rw [List.append_assoc]
    · rw [List.append_nil, Fragment.concat_append, Fragment.concat_append, hconcat,
        ← List.append_assoc, hbefore, List.append_assoc]
  · refine ⟨ordered, ordered', [], fragment, fragment, rfl, rfl, .same fragment, ?_⟩
    rw [List.append_nil]
    exact h.concat

theorem Continues.foldl_place (h : Continues front ordered ordered') (isMark : Text → Bool)
    (fragments : List Fragment) :
    Continues front (fragments.foldl (Latex.place isMark) ordered)
      (fragments.foldl (Latex.place isMark) ordered') := by
  induction fragments generalizing ordered ordered' with
  | nil => exact h
  | cons fragment rest ih => exact ih (h.place isMark fragment)

theorem reorder_append (isMark : Text → Bool) (front back : List Fragment) :
    reorder isMark (front ++ back) = back.foldl (place isMark) (reorder isMark front) :=
  List.foldl_append

/-- The fragments begin with a mark. -/
def BeginsWithMark (isMark : Text → Bool) (fragments : List Fragment) : Prop :=
  ∃ mark rest, fragments = ⟨.call, mark⟩ :: rest ∧ isMark mark = true

theorem place_of_not_mark {fragment : Fragment} {rest : List Fragment}
    (h : ¬BeginsWithMark isMark (fragment :: rest)) (ordered : List Fragment) :
    place isMark ordered fragment = ordered ++ [fragment] := by
  refine if_neg fun hmark => h ⟨fragment.text, rest, ?_, hmark.2⟩
  obtain ⟨kind, text⟩ := fragment
  cases hmark.1
  rfl

/-- Fragments that are put together are put in order part by part, unless the second part begins
with a mark. -/
theorem concat_reorder_joined {front back both : List Fragment}
    (h : Joined Fragment.ofLiteral front back both)
    (hwhole : ∀ fragment ∈ back, fragment.text.IsWhole) (hmark : ¬BeginsWithMark isMark back) :
    Fragment.concat (reorder isMark both) =
      Fragment.concat (reorder isMark front) ++ Fragment.concat (reorder isMark back) := by
  cases h with
  | apart =>
      cases back with
      | nil => simp [reorder, Fragment.concat]
      | cons first rest =>
          have hcontinues : Continues (Fragment.concat (reorder isMark front))
              (reorder isMark front ++ [first]) ([] ++ [first]) :=
            ⟨reorder isMark front, [], [], first, first, rfl, rfl, .same first, rfl⟩
          rw [← place_of_not_mark hmark, ← place_of_not_mark hmark] at hcontinues
          rw [reorder_append]
          exact (hcontinues.foldl_place isMark rest).concat
  | @meet init t t' rest ht' =>
      have hliteral : ∀ (ordered : List Fragment) (t : Text),
          place isMark ordered (.ofLiteral t) = ordered ++ [.ofLiteral t] :=
        fun ordered t => if_neg fun hcall => by cases hcall.1
      have hcontinues : Continues (Fragment.concat (reorder isMark init) ++ t)
          (reorder isMark init ++ [.ofLiteral (t ++ t')]) ([] ++ [.ofLiteral t']) :=
        ⟨reorder isMark init, [], t, _, _, rfl, rfl,
          .literal t ht' (hwhole _ (List.mem_cons_self ..)), (List.append_nil _).symm⟩
      rw [← hliteral, ← hliteral] at hcontinues
      have hfront : Fragment.concat (reorder isMark (init ++ [.ofLiteral t])) =
          Fragment.concat (reorder isMark init) ++ t := by
        rw [reorder_append, List.foldl_cons, List.foldl_nil, hliteral, Fragment.concat_append,
          Fragment.concat_singleton]
      rw [reorder_append, hfront]
      exact (hcontinues.foldl_place isMark rest).concat

end Latex

/-! ## The last pass -/

/-- Fragments that are put together are written out part by part, if those behind the seam are whole
and do not begin with a mark in LaTeX. -/
theorem Backend.output_joined (b : Backend) (reg : Registry) (peers : Representation → Peer)
    {front back both : List Fragment}
    (h : Joined Fragment.ofLiteral front back both)
    (hwhole : ∀ fragment ∈ back, fragment.text.IsWhole)
    (hmark : b.representation = .latex → ¬Latex.BeginsWithMark (reg.isMark .latex) back) :
    (b.target reg peers).output both =
      (b.target reg peers).output front ++ (b.target reg peers).output back := by
  have hseam : ∀ u ∈ (Fragment.concat back).head?, u.isTrailing = false :=
    (Fragment.isWhole_concat hwhole).isTrailing_head
  simp only [output_target, translate]
  cases hr : b.representation with
  | plain => exact h.concat ▸ Text.mapPoints_append _ _ hseam
  | unicode => exact h.concat
  | html => exact h.concat ▸ Text.mapPoints_append _ _ hseam
  | latex =>
      have hordered := Fragment.isWhole_concat (Latex.isWhole_reorder (reg.isMark .latex) hwhole)
      show Text.mapPoints _ (Fragment.concat (Latex.reorder _ both)) = _
      rw [Latex.concat_reorder_joined h hwhole (hmark hr)]
      exact Text.mapPoints_append _ _ hordered.isTrailing_head

end Sigil
