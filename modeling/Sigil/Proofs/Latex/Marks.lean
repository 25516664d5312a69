import Sigil.Proofs.Backend.Concatenation
import Sigil.Proofs.Engine.Creation

/-!
# Marks over what precedes them

The last pass of LaTeX moves one mark at a time over the fragment that is last at that moment. What
comes of that can be read off the fragments at once: they fall into groups, each a base with the
marks behind it (`Latex.group`), and every group is written by itself, with the marks around the
base, the first of them innermost (`Marked.text`). A mark decorates a whole call, but only the last
character of literal text. Nothing is lost on the way, and nothing but braces is added
(`Latex.Rearranges`). The result for the accent macros is `Engine.marks_nest`.
-/

namespace Sigil

namespace Latex

open CodeUnit (leftBrace backslash)

/-! ## Groups -/

/-- The fragment is a call that is rendered to a mark. -/
def isMarkCall (isMark : Text → Bool) (fragment : Fragment) : Bool :=
  fragment.kind = .call && isMark fragment.text

/-- A fragment with the marks behind it, the nearest first. -/
structure Marked where
  base : Fragment
  marks : List Text

/-- The fragments in groups: a base, and behind it as many marks as there are. A mark with nothing
in front of it is a base. -/
def group (isMark : Text → Bool) : List Fragment → List Marked
  | [] => []
  | base :: rest =>
    ⟨base, (rest.takeWhile (isMarkCall isMark)).map Fragment.text⟩ ::
      group isMark (rest.dropWhile (isMarkCall isMark))
termination_by fragments => fragments.length
decreasing_by exact Nat.lt_succ_of_le (List.dropWhile_sublist _).length_le

/-- Marks around a text, each with all that is inside of it in braces. -/
def nest (inner : Text) (marks : List Text) : Text :=
  marks.foldl (fun inner mark => mark ++ brace inner) inner

/-- A call with marks around it. A call that begins with a brace gets no other. -/
def nestCall (call : Text) : List Text → Text
  | [] => call
  | mark :: marks => nest (mark ++ if call.head? = some leftBrace then call else brace call) marks

/-- A group as it is written. Behind literal text the marks go around the last character, and behind
an empty one the first mark is in the place of the base. -/
def Marked.text : Marked → Text
  | ⟨⟨.call, call⟩, marks⟩ => nestCall call marks
  | ⟨⟨.literal, literal⟩, []⟩ => literal
  | ⟨⟨.literal, literal⟩, mark :: marks⟩ =>
    match literal.characters.getLast? with
    | none => nestCall mark marks
    | some last => literal.characters.dropLast.flatten ++ nest last (mark :: marks)

/-- The fragments of a group. -/
def Marked.fragments (group : Marked) : List Fragment :=
  group.base :: group.marks.map fun mark => ⟨.call, mark⟩

variable {isMark : Text → Bool}

theorem isMarkCall_iff {fragment : Fragment} :
    isMarkCall isMark fragment = true ↔ fragment.kind = .call ∧ isMark fragment.text = true := by
  rw [isMarkCall, Bool.and_eq_true, decide_eq_true_eq]

/-- Calls that are marks are known by their texts. -/
theorem map_text_takeWhile (fragments : List Fragment) :
    ((fragments.takeWhile (isMarkCall isMark)).map Fragment.text).map (fun mark => ⟨.call, mark⟩) =
      fragments.takeWhile (isMarkCall isMark) := by
  rw [List.map_map]
  conv_rhs => rw [← List.map_id (fragments.takeWhile (isMarkCall isMark))]
  refine List.map_congr_left ?_
  intro ⟨kind, text⟩ hfragment
  obtain ⟨rfl, -⟩ := isMarkCall_iff.mp (List.all_eq_true.mp List.all_takeWhile _ hfragment)
  rfl

/-- The groups are made of all fragments, in their order. -/
theorem flatMap_fragments_group (fragments : List Fragment) :
    (group isMark fragments).flatMap Marked.fragments = fragments := by
  fun_induction group with
  | case1 => rfl
  | case2 base rest ih =>
      rw [List.flatMap_cons, ih, Marked.fragments, map_text_takeWhile, List.cons_append,
        List.takeWhile_append_dropWhile]

/-! ## Placing the fragments of a group -/

/-- Every mark begins with a backslash. -/
def MarksAreMacros (isMark : Text → Bool) : Prop :=
  ∀ mark, isMark mark = true → mark.head? = some backslash

/-- A call that a mark was put over does not begin with a brace. -/
theorem nestCall_mark (hmacros : MarksAreMacros isMark) {mark : Text} (hmark : isMark mark = true)
    (t : Text) (marks : List Text) : nestCall (mark ++ t) marks = nest (mark ++ t) marks := by
  have hhead : (mark ++ t).head? ≠ some leftBrace := by
    rw [List.head?_append, hmacros mark hmark, Option.some_or]
    decide
  cases marks with
  | nil => rfl
  | cons mark marks => rw [nestCall, if_neg hhead, nest, nest, List.foldl_cons]

/-- Marks behind a call go around it one after another. -/
theorem foldl_place_call (hmacros : MarksAreMacros isMark) {marks : List Text}
    (hmarks : ∀ mark ∈ marks, isMark mark = true) (ordered : List Fragment) (call : Text) :
    (marks.map fun mark => ⟨.call, mark⟩).foldl (place isMark) (ordered ++ [⟨.call, call⟩]) =
      ordered ++ [⟨.call, nestCall call marks⟩] := by
  induction marks generalizing call with
  | nil => rfl
  | cons mark marks ih =>
      rw [List.forall_mem_cons] at hmarks
      have hplace : place isMark (ordered ++ [⟨.call, call⟩]) ⟨.call, mark⟩ =
          ordered ++ [⟨.call, mark ++ braceOnce call⟩] := by
        rw [place, if_pos ⟨rfl, hmarks.1⟩, List.getLast?_concat, List.dropLast_concat]
        rfl
      rw [List.map_cons, List.foldl_cons, hplace, ih hmarks.2,
        nestCall_mark hmacros hmarks.1]
      rfl

/-- Marks behind literal text go around its last character, or around the first of them if it is
empty. -/
theorem exists_foldl_place_literal (hmacros : MarksAreMacros isMark) (literal : Text)
    {mark : Text} (hmark : isMark mark = true) {marks : List Text}
    (hmarks : ∀ mark ∈ marks, isMark mark = true) (ordered : List Fragment) :
    ∃ placed, (marks.map fun mark => ⟨.call, mark⟩).foldl (place isMark)
          (ordered ++ decorate (.ofLiteral literal) mark) = ordered ++ placed ∧
        Fragment.concat placed = Marked.text ⟨.ofLiteral literal, mark :: marks⟩ := by
  show ∃ placed, _ ∧ Fragment.concat placed = match literal.characters.getLast? with
    | none => nestCall mark marks
    | some last => literal.characters.dropLast.flatten ++ nest last (mark :: marks)
  rcases List.eq_nil_or_concat literal.characters with hnone | ⟨init, last, hsome⟩
  · have hdecorate : decorate (.ofLiteral literal) mark = [⟨.call, mark⟩] := by
      simp only [decorate, hnone, List.getLast?_nil]
    rw [hdecorate, hnone, List.getLast?_nil]
    exact ⟨_, foldl_place_call hmacros hmarks ordered mark, Fragment.concat_singleton _⟩
  · rw [List.concat_eq_append] at hsome
    obtain ⟨front, hdecorate, hfront⟩ := exists_decorate_literal hsome mark
    -- the other marks go around the call that the first one made of the last character
    refine ⟨front ++ [⟨.call, nestCall (mark ++ brace last) marks⟩], ?_, ?_⟩
    · rw [hdecorate, ← List.append_assoc, ← List.append_assoc]
      exact foldl_place_call hmacros hmarks (ordered ++ front) _
    · rw [Fragment.concat_append, Fragment.concat_singleton, hfront, hsome,
        List.getLast?_concat, List.dropLast_concat, nestCall_mark hmacros hmark]
      rfl

/-- Marks behind a fragment are written as a group with it, whatever is in front. -/
theorem exists_foldl_place (hmacros : MarksAreMacros isMark) (base : Fragment) {marks : List Text}
    (hmarks : ∀ mark ∈ marks, isMark mark = true) (ordered : List Fragment) :
    ∃ placed, (marks.map fun mark => ⟨.call, mark⟩).foldl (place isMark) (ordered ++ [base]) =
        ordered ++ placed ∧ Fragment.concat placed = Marked.text ⟨base, marks⟩ := by
  obtain ⟨kind, text⟩ := base
  cases kind with
  | call => exact ⟨_, foldl_place_call hmacros hmarks ordered text, Fragment.concat_singleton _⟩
  | literal =>
      cases marks with
      | nil => exact ⟨[.ofLiteral text], rfl, Fragment.concat_singleton _⟩
      | cons mark marks =>
          rw [List.forall_mem_cons] at hmarks
          have hplace : place isMark (ordered ++ [⟨.literal, text⟩]) ⟨.call, mark⟩ =
              ordered ++ decorate (.ofLiteral text) mark := by
            rw [place, if_pos ⟨rfl, hmarks.1⟩, List.getLast?_concat, List.dropLast_concat]
          rw [List.map_cons, List.foldl_cons, hplace]
          exact exists_foldl_place_literal hmacros text hmarks.1 hmarks.2 ordered

/-- Fragments behind others are written group by group, unless the first of them is a mark that goes
over what is in front. -/
theorem concat_foldl_place (hmacros : MarksAreMacros isMark) (fragments ordered : List Fragment)
    (hfront : ordered = [] ∨ ¬BeginsWithMark isMark fragments) :
    Fragment.concat (fragments.foldl (place isMark) ordered) =
      Fragment.concat ordered ++ (group isMark fragments).flatMap Marked.text := by
  fun_induction group isMark fragments generalizing ordered with
  | case1 => rw [List.foldl_nil, List.flatMap_nil, List.append_nil]
  | case2 base rest ih =>
      have hbase : place isMark ordered base = ordered ++ [base] := by
        rcases hfront with rfl | hfront
        · unfold place
          split <;> rfl
        · exact place_of_not_mark hfront ordered
      have hmarks : ∀ mark ∈ (rest.takeWhile (isMarkCall isMark)).map Fragment.text,
          isMark mark = true := by
        intro mark hmark
        obtain ⟨fragment, hfragment, rfl⟩ := List.mem_map.mp hmark
        exact (isMarkCall_iff.mp (List.all_eq_true.mp List.all_takeWhile _ hfragment)).2
      have hbehind : ¬BeginsWithMark isMark (rest.dropWhile (isMarkCall isMark)) := by
        rintro ⟨mark, others, hdrop, hmark⟩
        have hhead := List.head?_dropWhile_not (isMarkCall isMark) rest
        rw [hdrop] at hhead
        exact Bool.false_ne_true (hhead.symm.trans (isMarkCall_iff.mpr ⟨rfl, hmark⟩))
      obtain ⟨placed, hplaced, hconcat⟩ := exists_foldl_place hmacros base hmarks ordered
      rw [map_text_takeWhile] at hplaced
      rw [List.foldl_cons, hbase]
      conv_lhs => rw [← List.takeWhile_append_dropWhile (p := isMarkCall isMark) (l := rest)]
      rw [List.foldl_append, hplaced, ih _ (.inr hbehind), Fragment.concat_append, hconcat,
        List.flatMap_cons, List.append_assoc]

/-- Fragments in order are written group by group. -/
theorem concat_reorder (hmacros : MarksAreMacros isMark) (fragments : List Fragment) :
    Fragment.concat (reorder isMark fragments) =
      (group isMark fragments).flatMap Marked.text :=
  concat_foldl_place hmacros fragments [] (.inl rfl)

/-! ## Nothing is lost -/

/-- So many opening braces, and as many closing ones. -/
def bracePairs (n : Nat) : List Text :=
  List.replicate n (Text.ofString "\x7b") ++ List.replicate n (Text.ofString "\x7d")

/-- The text consists of these characters, in any order, and of pairs of braces. -/
def Rearranges (characters : List Text) (t : Text) : Prop :=
  ∃ n, ∃ pieces : List Text, t = pieces.flatten ∧ pieces.Perm (characters ++ bracePairs n)

namespace Rearranges

variable {characters characters' : List Text} {t t' : Text}

/-- Characters one after another are rearranged trivially. -/
theorem flatten (characters : List Text) : Rearranges characters characters.flatten := by
  refine ⟨0, characters, rfl, ?_⟩
  rw [bracePairs, List.replicate_zero, List.replicate_zero, List.append_nil, List.append_nil]

/-- A text consists of its own characters. -/
theorem self (t : Text) : Rearranges t.characters t := by
  have h := flatten t.characters
  rwa [t.flatten_characters] at h

/-- The order of the characters is of no importance. -/
theorem perm (h : Rearranges characters t) (hperm : characters.Perm characters') :
    Rearranges characters' t := by
  obtain ⟨n, pieces, ht, hpieces⟩ := h
  exact ⟨n, pieces, ht, hpieces.trans (hperm.append_right _)⟩

/-- Texts one after another consist of what both consist of. -/
theorem append (h : Rearranges characters t) (h' : Rearranges characters' t') :
    Rearranges (characters ++ characters') (t ++ t') := by
  obtain ⟨n, pieces, rfl, hpieces⟩ := h
  obtain ⟨n', pieces', rfl, hpieces'⟩ := h'
  refine ⟨n + n', pieces ++ pieces', List.flatten_append.symm, ?_⟩
  rw [List.perm_iff_count] at hpieces hpieces' ⊢
  intro piece
  simp only [List.count_append, bracePairs, List.replicate_add] at hpieces hpieces' ⊢
  have hcount := hpieces piece
  have hcount' := hpieces' piece
  omega

/-- Braces around a text are one more pair. -/
theorem brace (h : Rearranges characters t) : Rearranges characters (brace t) := by
  obtain ⟨n, pieces, rfl, hpieces⟩ := h
  refine ⟨n + 1, Text.ofString "\x7b" :: (pieces ++ [Text.ofString "\x7d"]), ?_, ?_⟩
  · rw [List.flatten_cons, List.flatten_append, List.flatten_singleton, ← List.append_assoc]
    rfl
  · rw [List.perm_iff_count] at hpieces ⊢
    intro piece
    simp only [List.count_append, List.count_cons, List.count_nil, bracePairs,
      List.replicate_succ] at hpieces ⊢
    have hcount := hpieces piece
    omega

/-- Marks around a text consist of the marks and the text. -/
theorem nest (h : Rearranges characters t) (marks : List Text) :
    Rearranges (characters ++ marks.flatMap Text.characters) (nest t marks) := by
  induction marks generalizing characters t with
  | nil =>
      rw [List.flatMap_nil, List.append_nil]
      exact h
  | cons mark marks ih =>
      rw [List.flatMap_cons, ← List.append_assoc]
      exact ih (((self mark).append h.brace).perm List.perm_append_comm)

/-- So does a call with marks around it. -/
theorem nestCall (h : Rearranges characters t) (marks : List Text) :
    Rearranges (characters ++ marks.flatMap Text.characters) (nestCall t marks) := by
  cases marks with
  | nil =>
      rw [List.flatMap_nil, List.append_nil]
      exact h
  | cons mark marks =>
      have hbraced : Rearranges characters
          (if t.head? = some leftBrace then t else Latex.brace t) := by
        split
        · exact h
        · exact h.brace
      rw [List.flatMap_cons, ← List.append_assoc]
      exact (((self mark).append hbraced).perm List.perm_append_comm).nest marks

end Rearranges

/-- A group consists of what its fragments consist of. -/
theorem rearranges_text (marked : Marked) :
    Rearranges (marked.fragments.flatMap fun fragment => fragment.text.characters)
      marked.text := by
  obtain ⟨⟨kind, text⟩, marks⟩ := marked
  have hfragments : (Marked.fragments ⟨⟨kind, text⟩, marks⟩).flatMap
        (fun fragment => fragment.text.characters) =
      text.characters ++ marks.flatMap Text.characters := by
    rw [Marked.fragments, List.flatMap_cons, List.flatMap_map]
  rw [hfragments]
  cases kind with
  | call => exact (Rearranges.self text).nestCall marks
  | literal =>
      cases marks with
      | nil =>
          rw [List.flatMap_nil, List.append_nil]
          exact .self text
      | cons mark marks =>
          rw [Marked.text]
          rcases List.eq_nil_or_concat text.characters with hnone | ⟨init, last, hsome⟩
          · rw [hnone, List.getLast?_nil, List.nil_append, List.flatMap_cons]
            exact (Rearranges.self mark).nestCall marks
          · rw [List.concat_eq_append] at hsome
            rw [hsome, List.getLast?_concat, List.dropLast_concat, List.append_assoc]
            have hlast := Rearranges.flatten [last]
            rw [List.flatten_singleton] at hlast
            exact (Rearranges.flatten init).append (hlast.nest (mark :: marks))

/-- Groups one after another consist of what all fragments consist of. -/
theorem rearranges_group (isMark : Text → Bool) (fragments : List Fragment) :
    Rearranges (fragments.flatMap fun fragment => fragment.text.characters)
      ((group isMark fragments).flatMap Marked.text) := by
  have hall : ∀ groups : List Marked,
      Rearranges
        ((groups.flatMap Marked.fragments).flatMap fun fragment => fragment.text.characters)
        (groups.flatMap Marked.text) := by
    intro groups
    induction groups with
    | nil => exact .flatten []
    | cons marked groups ih =>
        rw [List.flatMap_cons, List.flatMap_cons, List.flatMap_append]
        exact (rearranges_text marked).append ih
  have hgroups := hall (group isMark fragments)
  rwa [flatMap_fragments_group] at hgroups

/-- The pieces that a text of whole characters is rearranged to are its characters. -/
theorem Rearranges.exists_characters {characters : List Text} {t : Text}
    (h : Rearranges characters t) :
    ∃ n, ∃ pieces : List Text, t = pieces.flatten ∧ pieces.Perm (characters ++ bracePairs n) ∧
      ((∀ c ∈ characters, c.IsWhole ∧ c.characters = [c]) → pieces = t.characters) := by
  obtain ⟨n, pieces, rfl, hperm⟩ := h
  refine ⟨n, pieces, rfl, hperm, ?_⟩
  intro hcharacters
  have hbraces : ∀ c ∈ bracePairs n, c.IsWhole ∧ c.characters = [c] := by
    intro c hc
    rcases List.mem_append.mp hc with hc | hc
    · rw [List.eq_of_mem_replicate hc]
      exact ⟨Text.isWhole_ofString _, rfl⟩
    · rw [List.eq_of_mem_replicate hc]
      exact ⟨Text.isWhole_ofString _, rfl⟩
  have hpieces : ∀ c ∈ pieces, c.IsWhole ∧ c.characters = [c] := by
    intro c hc
    rcases List.mem_append.mp (hperm.mem_iff.mp hc) with hc | hc
    · exact hcharacters c hc
    · exact hbraces c hc
  exact (Text.characters_flatten (fun c hc => (hpieces c hc).1) fun c hc => (hpieces c hc).2).symm

/-! ## The last pass -/

/-- Other ASCII stays as it is. -/
theorem translatePoint_ascii {c : Nat} (hascii : c < 128) (hline : c ≠ 0x0A) (hblank : c ≠ 0x20) :
    translatePoint c = Text.ofCodePoint c := by
  rw [translatePoint, if_neg hline, if_neg hblank, if_pos hascii]

/-- What is not ASCII is written as its number in base sixteen. -/
theorem translatePoint_of_not_ascii {c : Nat} (h : 128 ≤ c) :
    translatePoint c = "\\unicode\x7b" ++ Text.hex c ++ "\x7d" := by
  rw [translatePoint, if_neg (by omega), if_neg (by omega), if_neg (by omega)]
  rfl

end Latex

/-! ## The accent macros -/

namespace Engine

/-- The accent macros are the texts that a new engine takes for marks. -/
theorem isMark_create_latex_iff (strict : Bool) (reg : Registry) {t : Text} :
    (create strict reg).registry.isMark .latex t = true ↔ t ∈ Symbols.Latex.marks := by
  rw [Registry.isMark, marks_create_latex, List.contains_iff_mem, mem_distinct]

theorem marksAreMacros_create (strict : Bool) (reg : Registry) :
    Latex.MarksAreMacros ((create strict reg).registry.isMark .latex) := by
  have hmarks : ∀ mark ∈ Symbols.Latex.marks, mark.head? = some CodeUnit.backslash := by decide
  intro mark hmark
  exact hmarks mark ((isMark_create_latex_iff strict reg).mp hmark)

/-- The last pass of a new engine goes over the groups. -/
theorem translate_create_latex (strict : Bool) (reg : Registry) (rendered : Text)
    (fragments : List Fragment) :
    ((create strict reg).backend .latex).translate (create strict reg).registry rendered fragments =
      Text.mapPoints Latex.translatePoint
        ((Latex.group ((create strict reg).registry.isMark .latex) fragments).flatMap
          Latex.Marked.text) := by
  have hrepresentation : ((create strict reg).backend .latex).representation = .latex :=
    (uniform_create strict reg .latex).1
  rw [Backend.translate, hrepresentation, ← Latex.concat_reorder (marksAreMacros_create strict reg)]
  rfl

/-- LaTeX output is written group by group, with the accent macros behind a base around it: around a
whole call, in braces unless it begins with one, or around the last character of literal text. So it
consists of the characters of the fragments, each as often as there, and of pairs of braces. The
last pass then replaces its code points one by one: line ends and blanks by commands, and what is not
ASCII by its number. -/
theorem marks_nest (strict : Bool) (reg : Registry) (rendered : Text) (fragments : List Fragment) :
    let e := create strict reg
    let isMark := e.registry.isMark .latex
    let text : Text := (Latex.group isMark fragments).flatMap Latex.Marked.text
    (∀ t, isMark t = true ↔ t ∈ Symbols.Latex.marks) ∧
      Fragment.concat (Latex.reorder isMark fragments) = text ∧
      (∃ n, ∃ pieces : List Text, text = pieces.flatten ∧
        pieces.Perm
          (fragments.flatMap (fun fragment => fragment.text.characters) ++ Latex.bracePairs n) ∧
        ((∀ fragment ∈ fragments, fragment.text.IsWhole) → pieces = text.characters)) ∧
      (e.backend .latex).translate e.registry rendered fragments =
        text.mapPoints Latex.translatePoint ∧
      Latex.translatePoint 0x0A = "\\\\" ∧ Latex.translatePoint 0x20 = "\\ " ∧
      (∀ c < 128, c ≠ 0x0A → c ≠ 0x20 → Latex.translatePoint c = Text.ofCodePoint c) ∧
      ∀ c, 128 ≤ c → Latex.translatePoint c = "\\unicode\x7b" ++ Text.hex c ++ "\x7d" := by
  intro e isMark text
  refine ⟨fun t => isMark_create_latex_iff strict reg,
    Latex.concat_reorder (marksAreMacros_create strict reg) fragments, ?_,
    translate_create_latex strict reg rendered fragments, rfl, rfl,
    fun c => Latex.translatePoint_ascii, fun c => Latex.translatePoint_of_not_ascii⟩
  obtain ⟨n, pieces, htext, hperm, hcharacters⟩ :=
    (Latex.rearranges_group isMark fragments).exists_characters
  refine ⟨n, pieces, htext, hperm, fun hwhole => hcharacters ?_⟩
  intro c hc
  obtain ⟨fragment, hfragment, hc⟩ := List.mem_flatMap.mp hc
  exact ⟨(hwhole fragment hfragment).characters c hc,
    (hwhole fragment hfragment).characters_of_mem hc⟩

/-- Two marks behind literal text nest around its last character. -/
example :
    let e := create
    (e.backend .latex).translate e.registry []
        [⟨.literal, "a b"⟩, ⟨.call, "\\^"⟩, ⟨.call, "\\bar"⟩, ⟨.literal, "!"⟩] =
      "a\\ \\bar\x7b\\^\x7bb\x7d\x7d!" := by
  decide +kernel

end Engine

end Sigil
