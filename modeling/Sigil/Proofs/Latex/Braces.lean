import Sigil.Proofs.Latex.Marks

/-!
# Braces in LaTeX

A text is balanced if every brace that closes was open, and none is left open. A brace group is a
balanced text in braces, so that its first brace closes at the very end. The last pass keeps both
apart from what is not a brace (`Latex.isGroup_mapPoints_iff`). An accent macro takes the whole call
in front of it for its argument unless the call begins with a brace that closes before its end
(`Engine.accent_argument`).
-/

namespace Sigil

namespace Latex

open CodeUnit (leftBrace rightBrace newline space)

/-- How many braces are open behind a text with so many open in front of it, unless one closes that
was not open. -/
def openBehind (n : Nat) : Text → Option Nat
  | [] => some n
  | u :: t =>
    if u = leftBrace then openBehind (n + 1) t
    else if u = rightBrace then
      match n with
      | 0 => none
      | n + 1 => openBehind n t
    else openBehind n t

/-- Every brace that closes was open, and none is left open. -/
def IsBalanced (t : Text) : Prop := openBehind 0 t = some 0

instance (t : Text) : Decidable (IsBalanced t) := inferInstanceAs (Decidable (_ = _))

/-- The text begins with a brace that closes at its end and not before. -/
def IsGroup (t : Text) : Prop := ∃ body, IsBalanced body ∧ t = brace body

/-! ## Counting open braces -/

section

variable {n k : Nat} {s t : Text} {u : CodeUnit}

@[simp]
theorem openBehind_nil : openBehind n [] = some n := rfl

@[simp]
theorem openBehind_left : openBehind n (leftBrace :: t) = openBehind (n + 1) t := rfl

@[simp]
theorem openBehind_right_zero : openBehind 0 (rightBrace :: t) = none := rfl

@[simp]
theorem openBehind_right_succ : openBehind (n + 1) (rightBrace :: t) = openBehind n t := rfl

theorem openBehind_cons (hleft : u ≠ leftBrace) (hright : u ≠ rightBrace) :
    openBehind n (u :: t) = openBehind n t := by
  rw [openBehind.eq_def]
  simp only [if_neg hleft, if_neg hright]

theorem openBehind_append : openBehind n (s ++ t) = (openBehind n s).bind (openBehind · t) := by
  fun_induction openBehind n s with
  | case1 => rfl
  | case2 => assumption
  | case3 => rfl
  | case4 => assumption
  | case5 n u s hleft hright ih => rw [List.cons_append, openBehind_cons hleft hright, ih]

/-- Braces that are open in front of a text stay open if it does not close them. -/
theorem openBehind_add (h : openBehind n t = some k) (j : Nat) :
    openBehind (n + j) t = some (k + j) := by
  fun_induction openBehind n t with
  | case1 => cases h; rfl
  | case2 n t ih =>
      rw [openBehind_left, Nat.add_right_comm]
      exact ih h
  | case3 => cases h
  | case4 t n hne ih =>
      rw [Nat.succ_eq_add_one, Nat.add_right_comm, openBehind_right_succ]
      exact ih h
  | case5 n u t hleft hright ih => rw [openBehind_cons hleft hright, ih h]

/-- A balanced text changes nothing. -/
theorem IsBalanced.openBehind_eq (h : IsBalanced t) (n : Nat) : openBehind n t = some n := by
  have hadd := openBehind_add h n
  rwa [Nat.zero_add] at hadd

/-- The brace that is open in front of a text closes somewhere in it, behind balanced text, if none
is left open. -/
theorem exists_closing (h : openBehind (n + 1) t = some 0) :
    ∃ body after,
      t = body ++ rightBrace :: after ∧ IsBalanced body ∧ openBehind n after = some 0 := by
  -- the text behind a nested group is shorter than the group and the text
  induction hlength : t.length using Nat.strongRecOn generalizing t n with
  | ind length ih =>
      subst hlength
      cases t with
      | nil => cases h
      | cons u t =>
          by_cases hright : u = rightBrace
          · subst hright
            exact ⟨[], t, rfl, rfl, h⟩
          by_cases hleft : u = leftBrace
          · subst hleft
            rw [openBehind_left] at h
            obtain ⟨inner, rest, rfl, hinner, hrest⟩ := ih t.length (Nat.lt_succ_self _) h rfl
            obtain ⟨body, after, rfl, hbody, hafter⟩ := ih rest.length
              (by simp only [List.length_cons, List.length_append]; omega) hrest rfl
            refine ⟨leftBrace :: inner ++ rightBrace :: body, after, ?_, ?_, hafter⟩
            · rw [List.append_assoc, List.cons_append, List.cons_append]
            · rw [IsBalanced, List.cons_append, openBehind_left, openBehind_append,
                hinner.openBehind_eq, Option.bind_some, openBehind_right_succ]
              exact hbody
          · rw [openBehind_cons hleft hright] at h
            obtain ⟨body, after, rfl, hbody, hafter⟩ := ih t.length (Nat.lt_succ_self _) h rfl
            refine ⟨u :: body, after, rfl, ?_, hafter⟩
            rw [IsBalanced, openBehind_cons hleft hright]
            exact hbody

/-- There is one brace that closes first. -/
theorem IsBalanced.append_inj {body body' after after' : Text} (h : IsBalanced body)
    (h' : IsBalanced body')
    (heq : body ++ rightBrace :: after = body' ++ rightBrace :: after') :
    body = body' ∧ after = after' := by
  have hshorter : ∀ {body rest : Text}, IsBalanced body →
      ¬IsBalanced (body ++ rightBrace :: rest) := by
    intro body rest hbody hall
    rw [IsBalanced, openBehind_append, hbody.openBehind_eq, Option.bind_some,
      openBehind_right_zero] at hall
    cases hall
  rcases List.append_eq_append_iff.mp heq with ⟨more, rfl, hmore⟩ | ⟨more, rfl, hmore⟩
  · cases more with
    | nil => exact ⟨(List.append_nil _).symm, (List.cons.inj hmore).2⟩
    | cons u more =>
        obtain ⟨rfl, -⟩ := List.cons.inj hmore
        exact absurd h' (hshorter h)
  · cases more with
    | nil => exact ⟨List.append_nil _, (List.cons.inj hmore).2.symm⟩
    | cons u more =>
        obtain ⟨rfl, -⟩ := List.cons.inj hmore
        exact absurd h (hshorter h')

/-- Text without braces is balanced. -/
theorem isBalanced_of_ne (h : ∀ u ∈ t, u ≠ leftBrace ∧ u ≠ rightBrace) : IsBalanced t := by
  induction t with
  | nil => rfl
  | cons u t ih =>
      rw [List.forall_mem_cons] at h
      rw [IsBalanced, openBehind_cons h.1.1 h.1.2]
      exact ih h.2

theorem IsBalanced.append (h : IsBalanced s) (h' : IsBalanced t) : IsBalanced (s ++ t) := by
  rw [IsBalanced, openBehind_append, h, Option.bind_some]
  exact h'

/-- A text in braces leaves the braces open that the text leaves open. -/
theorem openBehind_brace (h : openBehind n t = some k) :
    openBehind n (brace t) = some k := by
  show openBehind n (leftBrace :: (t ++ [rightBrace])) = some k
  rw [openBehind_left, openBehind_append, openBehind_add h 1, Option.bind_some,
    openBehind_right_succ, openBehind_nil]

theorem IsBalanced.brace (h : IsBalanced t) : IsBalanced (brace t) := openBehind_brace h

end

/-! ## Groups -/

/-- A text is a group if what is between its ends is balanced. -/
theorem isGroup_iff {t : Text} :
    IsGroup t ↔ IsBalanced t.tail.dropLast ∧ t = brace t.tail.dropLast := by
  constructor
  · rintro ⟨body, hbody, rfl⟩
    have hbetween : (brace body).tail.dropLast = body := by
      show (body ++ [rightBrace]).dropLast = body
      rw [List.dropLast_concat]
    rw [hbetween]
    exact ⟨hbody, rfl⟩
  · rintro ⟨hbody, ht⟩
    exact ⟨_, hbody, ht⟩

instance (t : Text) : Decidable (IsGroup t) := decidable_of_iff _ isGroup_iff.symm

/-- A text whose first brace closes somewhere is a group if nothing is behind that. -/
theorem isGroup_cons_iff {body after : Text} (hbody : IsBalanced body) :
    IsGroup (leftBrace :: (body ++ rightBrace :: after)) ↔ after = [] := by
  constructor
  · rintro ⟨body', hbody', heq⟩
    have hinside : body ++ rightBrace :: after = body' ++ rightBrace :: [] :=
      (List.cons.inj heq).2
    exact (hbody.append_inj hbody' hinside).2
  · rintro rfl
    exact ⟨body, hbody, rfl⟩

/-- The first brace of a balanced text closes somewhere. -/
theorem IsBalanced.exists_body {t : Text} (h : IsBalanced t) (hhead : t.head? = some leftBrace) :
    ∃ body after, t = leftBrace :: (body ++ rightBrace :: after) ∧ IsBalanced body := by
  obtain ⟨rest, rfl⟩ := List.head?_eq_some_iff.mp hhead
  have hopen : openBehind (0 + 1) rest = some 0 := h
  obtain ⟨body, after, rfl, hbody, -⟩ := exists_closing hopen
  exact ⟨body, after, rfl, hbody⟩

/-! ## The last pass -/

/-- What the last pass writes for a code point is balanced, unless the code point is a brace. -/
theorem isBalanced_translatePoint {c : Nat} (hleft : c ≠ leftBrace.toNat)
    (hright : c ≠ rightBrace.toNat) : IsBalanced (translatePoint c) := by
  unfold translatePoint
  split
  · rfl
  split
  · rfl
  split
  · rename_i hascii
    refine isBalanced_of_ne fun u hu => ?_
    have hpoint := Text.mem_ofCodePoint_of_ascii hascii hu
    exact ⟨fun heq => hleft (heq ▸ hpoint.symm), fun heq => hright (heq ▸ hpoint.symm)⟩
  · have hdigits : IsBalanced (Text.hex c) := by
      refine isBalanced_of_ne fun u hu => ?_
      have hdigit := Text.isHexDigit_of_mem_hex hu
      constructor
      · rintro rfl
        cases hdigit
      · rintro rfl
        cases hdigit
    have hname : IsBalanced "\\unicode" := by decide
    exact hname.append hdigits.brace

/-- The last pass leaves as many braces open as the text that it is over. -/
theorem openBehind_mapPoints (n : Nat) (t : Text) :
    openBehind n (t.mapPoints translatePoint) = openBehind n t := by
  have hunit : ∀ (n : Nat) (u : CodeUnit) {rest rest' : Text},
      (∀ n, openBehind n rest' = openBehind n rest) →
        openBehind n (translatePoint u.toNat ++ rest') = openBehind n (u :: rest) := by
    intro n u rest rest' hrest
    by_cases hleft : u = leftBrace
    · subst hleft
      exact hrest (n + 1)
    by_cases hright : u = rightBrace
    · subst hright
      cases n with
      | zero => rfl
      | succ n => exact hrest n
    · have hpoint := isBalanced_translatePoint (c := u.toNat)
        (fun heq => hleft (UInt16.toNat_inj.mp heq)) fun heq => hright (UInt16.toNat_inj.mp heq)
      rw [openBehind_append, hpoint.openBehind_eq, Option.bind_some, hrest,
        openBehind_cons hleft hright]
  unfold Text.mapPoints
  fun_induction Text.codePoints t generalizing n with
  | case1 => rfl
  | case2 u => exact hunit n u fun _ => rfl
  | case3 u v rest hpair ih =>
      -- neither half of a pair is a brace, and neither is the pair
      rw [Bool.and_eq_true] at hpair
      have hlarge : 0x10000 ≤ u.pairPoint v := by
        unfold CodeUnit.pairPoint
        omega
      have hpoint : IsBalanced (translatePoint (u.pairPoint v)) :=
        isBalanced_translatePoint (Nat.ne_of_gt (Nat.lt_of_lt_of_le (by decide) hlarge))
          (Nat.ne_of_gt (Nat.lt_of_lt_of_le (by decide) hlarge))
      have hu : u ≠ leftBrace ∧ u ≠ rightBrace := by
        constructor <;> rintro rfl <;> cases hpair.1
      have hv : v ≠ leftBrace ∧ v ≠ rightBrace := by
        constructor <;> rintro rfl <;> cases hpair.2
      rw [List.flatMap_cons, openBehind_append, hpoint.openBehind_eq, Option.bind_some, ih,
        openBehind_cons hu.1 hu.2, openBehind_cons hv.1 hv.2]
  | case4 u v rest _ ih => exact hunit n u ih

theorem isBalanced_mapPoints_iff {t : Text} :
    IsBalanced (t.mapPoints translatePoint) ↔ IsBalanced t := by
  rw [IsBalanced, IsBalanced, openBehind_mapPoints]

theorem translatePoint_ne_nil (c : Nat) : translatePoint c ≠ [] := by
  unfold translatePoint
  split
  · decide
  split
  · decide
  split
  · unfold Text.ofCodePoint
    split <;> exact List.cons_ne_nil _ _
  · exact List.cons_ne_nil _ _

/-- The last pass leaves no text away. -/
theorem mapPoints_eq_nil_iff {t : Text} : t.mapPoints translatePoint = [] ↔ t = [] := by
  constructor
  · intro h
    cases hpoints : t.codePoints with
    | nil => rw [← t.ofCodePoints_codePoints, hpoints]; rfl
    | cons c points =>
        rw [Text.mapPoints, hpoints, List.flatMap_cons, List.append_eq_nil_iff] at h
        exact absurd h.1 (translatePoint_ne_nil c)
  · rintro rfl
    rfl

/-- The last pass goes over a text in braces as over the text. -/
theorem mapPoints_brace_append (body after : Text) :
    Text.mapPoints translatePoint (leftBrace :: (body ++ rightBrace :: after)) =
      leftBrace :: (body.mapPoints translatePoint ++
        rightBrace :: after.mapPoints translatePoint) := by
  have hfirst := Text.mapPoints_ascii_append translatePoint (s := [leftBrace])
    (List.forall_mem_singleton.mpr rfl) (body ++ rightBrace :: after)
  have hclosing := Text.mapPoints_ascii_append translatePoint (s := [rightBrace])
    (List.forall_mem_singleton.mpr rfl) after
  have hseam : ∀ u ∈ (rightBrace :: after).head?, u.isTrailing = false := by
    intro u hu
    cases hu
    decide
  refine hfirst.trans (congrArg (leftBrace :: ·) ?_)
  rw [Text.mapPoints_append translatePoint body hseam]
  exact congrArg (_ ++ ·) hclosing

/-- The last pass leaves a group a group, and makes none of balanced text that is no group. -/
theorem isGroup_mapPoints_iff {t : Text} (h : IsBalanced t) (hhead : t.head? = some leftBrace) :
    IsGroup (t.mapPoints translatePoint) ↔ IsGroup t := by
  obtain ⟨body, after, rfl, hbody⟩ := h.exists_body hhead
  rw [mapPoints_brace_append, isGroup_cons_iff hbody,
    isGroup_cons_iff (isBalanced_mapPoints_iff.mpr hbody), mapPoints_eq_nil_iff]

end Latex

/-! ## Accents -/

namespace Engine

open Latex (IsBalanced IsGroup brace translatePoint)

/-- An accent macro behind a balanced call is written in front of the call, which is put in braces
unless it begins with one. So the accent takes one brace group that ends with the output, unless the
call begins with a brace that closes before its end. -/
theorem accent_argument (strict : Bool) (reg : Registry) (rendered : Text) {call mark : Text}
    (hcall : IsBalanced call) (hmark : mark ∈ Symbols.Latex.marks) :
    let e := create strict reg
    ∃ argument, (e.backend .latex).translate e.registry rendered
          [⟨.call, call⟩, ⟨.call, mark⟩] = mark ++ argument ∧
      (argument = if call.head? = some CodeUnit.leftBrace then call.mapPoints translatePoint
        else brace (call.mapPoints translatePoint)) ∧
      (IsGroup argument ↔ call.head? = some CodeUnit.leftBrace → IsGroup call) := by
  intro e
  have hisMark : e.registry.isMark .latex mark = true :=
    (isMark_create_latex_iff strict reg).mpr hmark
  have hascii : ∀ u ∈ mark, u.isAscii = true ∧ translatePoint u.toNat = [u] := by
    have hall : (Symbols.Latex.marks.all fun mark =>
        mark.all fun u => u.isAscii && translatePoint u.toNat == [u]) = true := by
      decide
    intro u hu
    have hunit := List.all_eq_true.mp (List.all_eq_true.mp hall mark hmark) u hu
    rwa [Bool.and_eq_true, beq_iff_eq] at hunit
  -- the one mark goes around the one call
  have hgroup : Latex.group (e.registry.isMark .latex) [⟨.call, call⟩, ⟨.call, mark⟩] =
      [⟨⟨.call, call⟩, [mark]⟩] := by
    have hbehind : Latex.isMarkCall (e.registry.isMark .latex) ⟨.call, mark⟩ = true :=
      Latex.isMarkCall_iff.mpr ⟨rfl, hisMark⟩
    rw [Latex.group, List.takeWhile_cons_of_pos hbehind, List.dropWhile_cons_of_pos hbehind,
      List.takeWhile_nil, List.dropWhile_nil, Latex.group]
    rfl
  have htranslate : (e.backend .latex).translate e.registry rendered
      [⟨.call, call⟩, ⟨.call, mark⟩] = mark ++ Text.mapPoints translatePoint
        (if call.head? = some CodeUnit.leftBrace then call else brace call) := by
    rw [translate_create_latex, hgroup, List.flatMap_singleton]
    show Text.mapPoints translatePoint (mark ++ _) = _
    rw [Text.mapPoints_ascii_append _ fun u hu => (hascii u hu).1,
      Text.mapPoints_of_ascii (fun u hu => (hascii u hu).1) fun u hu => (hascii u hu).2]
  refine ⟨_, htranslate, ?_, ?_⟩
  · split
    · rfl
    · exact Latex.mapPoints_brace_append call []
  · split
    · rename_i hhead
      rw [Latex.isGroup_mapPoints_iff hcall hhead]
      exact ⟨fun h _ => h, fun h => h hhead⟩
    · rename_i hhead
      have hgroup : IsGroup (Text.mapPoints translatePoint (brace call)) :=
        ⟨_, Latex.isBalanced_mapPoints_iff.mpr hcall, Latex.mapPoints_brace_append call []⟩
      exact ⟨fun _ h => absurd h hhead, fun _ => hgroup⟩

/-- A bar over a fraction takes all of it. -/
theorem accent_argument_fraction :
    let e := create false .empty
    let call : Text := "\\frac\x7b1\x7d\x7b2\x7d"
    IsBalanced call ∧ Text.ofString "\\bar" ∈ Symbols.Latex.marks ∧
      (e.backend .latex).translate e.registry [] [⟨.call, call⟩, ⟨.call, "\\bar"⟩] =
        "\\bar\x7b\\frac\x7b1\x7d\x7b2\x7d\x7d" ∧
      IsGroup "\x7b\\frac\x7b1\x7d\x7b2\x7d\x7d" := by
  intro e call
  have hcall : IsBalanced call := by decide
  have hmark : Text.ofString "\\bar" ∈ Symbols.Latex.marks := by decide
  have hbraced : (if call.head? = some CodeUnit.leftBrace then call.mapPoints translatePoint
      else brace (call.mapPoints translatePoint)) = "\x7b\\frac\x7b1\x7d\x7b2\x7d\x7d" := by
    decide
  obtain ⟨argument, houtput, hargument, hgroup⟩ := accent_argument false .empty [] hcall hmark
  rw [hargument, hbraced] at houtput hgroup
  exact ⟨hcall, hmark, houtput, hgroup.mpr fun hhead => absurd hhead (by decide)⟩

/-- A bar over two brace groups takes the first of them alone. -/
theorem accent_takes_first_group :
    let e := create false .empty
    let call : Text := "\x7ba\x7d\x7bb\x7d"
    e.parse .latex "$arabic(\x7ba\x7d\x7bb\x7d)$math(bar)" = .ok "\\bar\x7ba\x7d\x7bb\x7d" ∧
      call ≠ [] ∧ IsBalanced call ∧ call ∉ Symbols.Latex.marks ∧
      Text.ofString "\\bar" ∈ Symbols.Latex.marks ∧
      (e.backend .latex).translate e.registry [] [⟨.call, call⟩, ⟨.call, "\\bar"⟩] =
        "\\bar\x7ba\x7d\x7bb\x7d" ∧
      ¬∃ argument, Text.ofString "\\bar\x7ba\x7d\x7bb\x7d" = "\\bar" ++ argument ∧
        IsGroup argument := by
  intro e call
  have hparse : e.parse .latex "$arabic(\x7ba\x7d\x7bb\x7d)$math(bar)" =
      .ok "\\bar\x7ba\x7d\x7bb\x7d" := by
    decide +kernel
  have houtput : (e.backend .latex).translate e.registry [] [⟨.call, call⟩, ⟨.call, "\\bar"⟩] =
      "\\bar\x7ba\x7d\x7bb\x7d" := by
    decide +kernel
  refine ⟨hparse, by decide, by decide, by decide, by decide, houtput, ?_⟩
  rintro ⟨argument, heq, hgroup⟩
  have hsplit : Text.ofString "\\bar" ++ call = Text.ofString "\\bar" ++ argument := heq
  rw [← List.append_cancel_left hsplit] at hgroup
  exact absurd hgroup (by decide)

end Engine

end Sigil
