import Mathlib.Data.List.Basic
import Mathlib.Data.List.Forall2
import Mathlib.Data.List.Nodup
import Sigil.Proofs.Engine.Vocabulary

/-!
# Digits in Unicode

A table prints texts apart if its codes are single characters that differ from one another
(`Mapping.SeparatesKeys`): every character of the output then stands for one character of the text
(`Scope.forall₂_characters`). The tables of digits, script letters, subscripts and superscripts do.
A fraction of two numerals is a precomposed character, or its numerator raised and its denominator
lowered around a fraction slash (`Unicode.IsFraction`). No precomposed character is a slash, and no
raised digit is one, so that the two forms together print fractions apart
(`Unicode.IsFraction.unique`).
-/

namespace Sigil

open Symbols.Unicode

/-! ## Texts looked up character by character -/

/-- The codes are single characters, and no two of them are the same. -/
def Mapping.SeparatesKeys (m : Mapping) : Prop :=
  (∀ entry ∈ m.entries, entry.2.wellFormed = true ∧ entry.2.characters = [entry.2]) ∧
    (m.entries.map Prod.snd).Nodup

instance (m : Mapping) : Decidable m.SeparatesKeys := inferInstanceAs (Decidable (_ ∧ _))

namespace Scope

variable {scope : Scope} {id s s' t : Text} {table : Table}
  (htable : scope.registry.table? scope.representation id = some table)
include htable

/-- A unit that no code of the table has does not get into the output. -/
theorem not_mem_of_lookupEach {u : CodeUnit} (hu : ∀ entry ∈ table.mapping.entries, u ∉ entry.2)
    (ht : scope.lookupEach id s = .ok t) : u ∉ t := by
  obtain ⟨codes, hcodes, hresult⟩ := bind_eq_ok_iff.mp ht
  cases hresult
  intro hmem
  obtain ⟨code, hcode, hmem⟩ := List.mem_flatten.mp hmem
  obtain ⟨key, -, hkey⟩ := exists_of_mem_mapM hcodes hcode
  exact hu _ ((lookup_eq_ok_iff htable).mp hkey) hmem

variable (h : table.mapping.SeparatesKeys)
include h

/-- Keys with one code are one. -/
theorem leftUnique_lookup : Relator.LeftUnique fun key code => scope.lookup id key = .ok code := by
  intro key key' code hkey hkey'
  rw [lookup_eq_ok_iff htable] at hkey hkey'
  exact congrArg Prod.fst (List.inj_on_of_nodup_map h.2 hkey hkey' rfl)

/-- Each character of the output is the code of a character of the text. -/
theorem forall₂_characters (ht : scope.lookupEach id s = .ok t) :
    List.Forall₂ (fun key code => scope.lookup id key = .ok code) s.characters t.characters := by
  obtain ⟨codes, hcodes, hresult⟩ := bind_eq_ok_iff.mp ht
  cases hresult
  have hcode : ∀ code ∈ codes, code.wellFormed = true ∧ code.characters = [code] := by
    intro code hcode
    obtain ⟨key, -, hkey⟩ := exists_of_mem_mapM hcodes hcode
    exact h.1 _ ((lookup_eq_ok_iff htable).mp hkey)
  rw [Text.characters_flatten (fun code hmem => Text.wellFormed_iff.mp (hcode code hmem).1)
    fun code hmem => (hcode code hmem).2]
  exact mapM_eq_ok_iff.mp hcodes

/-- The output is as wide as the text. -/
theorem width_of_lookupEach (ht : scope.lookupEach id s = .ok t) : t.width = s.width := by
  have hlength := (forall₂_characters htable h ht).length_eq
  rw [Text.characters, Text.characters, List.length_map, List.length_map] at hlength
  exact hlength.symm

/-- Different texts are printed differently. -/
theorem eq_of_lookupEach (hs : scope.lookupEach id s = .ok t)
    (hs' : scope.lookupEach id s' = .ok t) : s = s' := by
  have hcharacters : s.characters = s'.characters :=
    List.left_unique_forall₂' (leftUnique_lookup htable h) (forall₂_characters htable h hs)
      (forall₂_characters htable h hs')
  rw [← s.flatten_characters, hcharacters, s'.flatten_characters]

end Scope

/-! ## Numerals -/

namespace Text

/-- The text consists of ASCII digits. -/
def IsNumeral (t : Text) : Prop := ∀ u ∈ t, u.isDigit = true

instance (t : Text) : Decidable t.IsNumeral := List.decidableBAll _ t

/-- A text without blanks stays as it is when it is trimmed. -/
theorem trim_eq_self {t : Text} (h : ∀ u ∈ t, u.isBlank = false) : t.trim = t := by
  have hdrop : ∀ t : Text, (∀ u ∈ t, u.isBlank = false) → t.dropWhile CodeUnit.isBlank = t := by
    intro t h
    cases t with
    | nil => rfl
    | cons u t =>
        refine List.dropWhile_cons_of_neg ?_
        rw [h u (List.mem_cons_self ..)]
        exact Bool.false_ne_true
  rw [trim, trimStart, hdrop t h, trimEnd,
    hdrop t.reverse fun u hu => h u (List.mem_reverse.mp hu), List.reverse_reverse]

variable {t : Text} (h : t.IsNumeral)
include h

theorem IsNumeral.trim_eq : t.trim = t := by
  refine trim_eq_self fun u hu => ?_
  have hdigit := h u hu
  rw [Bool.eq_false_iff, Ne]
  simp only [CodeUnit.isDigit, CodeUnit.isBlank, Bool.or_eq_true, Bool.and_eq_true,
    decide_eq_true_eq, beq_iff_eq, ← UInt16.toNat_inj, UInt16.le_iff_toNat_le,
    UInt16.reduceToNat] at hdigit ⊢
  omega

/-- The characters of a numeral are its digits. -/
theorem IsNumeral.exists_of_mem_characters {c : Text} (hc : c ∈ t.characters) :
    ∃ u : CodeUnit, u.isDigit = true ∧ c = [u] := by
  have hascii : ∀ u ∈ t, u.isAscii = true := by
    intro u hu
    refine isAscii_of_isHexDigit ?_
    rw [isHexDigit, h u hu, Bool.true_or]
  rw [characters, codePoints_of_ascii hascii, List.map_map] at hc
  obtain ⟨u, hu, rfl⟩ := List.mem_map.mp hc
  exact ⟨u, h u hu, ofCodePoint_toNat u⟩

end Text

/-! ## Fractions -/

namespace Unicode

/-- The slash between the two parts of a fraction. -/
def fractionSlash : CodeUnit := 0x2044

/-- The ways in which a fraction of two numerals is printed. -/
inductive IsFraction (scope : Scope) (n d : Text) : Text → Prop where
  | precomposed {glyph : Text} (hglyph : scope.lookup "frac" (n ++ "/" ++ d) = .ok glyph) :
      IsFraction scope n d glyph
  | built {raised lowered : Text} (hraised : scope.lookupEach "sup" n = .ok raised)
      (hlowered : scope.lookupEach "sub" d = .ok lowered) :
      IsFraction scope n d (raised ++ fractionSlash :: lowered)

/-- Digits can be raised and lowered. -/
theorem digit_mem_keys {u : CodeUnit} (hu : u.isDigit = true) :
    [u] ∈ superscripts.keys ∧ [u] ∈ subscripts.keys := by
  have hkeys : ∀ k < 10, [UInt16.ofNat (0x30 + k)] ∈ superscripts.keys ∧
      [UInt16.ofNat (0x30 + k)] ∈ subscripts.keys := by
    decide +kernel
  simp only [CodeUnit.isDigit, Bool.and_eq_true, decide_eq_true_eq, UInt16.le_iff_toNat_le,
    UInt16.reduceToNat] at hu
  have h := hkeys (u.toNat - 0x30) (by omega)
  rwa [Nat.add_sub_cancel' hu.1, UInt16.ofNat_toNat] at h

/-- Neither precomposed characters nor raised and lowered digits have a slash in them. -/
theorem fractionSlash_not_mem :
    (∀ entry ∈ fractions.entries, fractionSlash ∉ entry.2) ∧
      (∀ entry ∈ superscripts.entries, fractionSlash ∉ entry.2) ∧
      ∀ entry ∈ subscripts.entries, fractionSlash ∉ entry.2 := by
  decide +kernel

section

variable {reg : Registry} (htables : reg.HasTables .unicode)
include htables

/-- The tables that fractions are printed from. -/
theorem table?_fractions :
    reg.table? .unicode "frac" = some ⟨"fractions", fractions⟩ ∧
      reg.table? .unicode "sup" = some ⟨"superscripts", superscripts⟩ ∧
      reg.table? .unicode "sub" = some ⟨"subscripts", subscripts⟩ :=
  ⟨htables _ (List.mem_of_getElem? (i := 1) rfl) _ rfl,
    htables _ (List.mem_of_getElem? (i := 6) rfl) _ rfl,
    htables _ (List.mem_of_getElem? (i := 5) rfl) _ rfl⟩

/-- A fraction of numerals is always printed, in one of the two ways. -/
theorem exists_renderFraction (peers : Representation → Peer) {n d : Text} (hn : n.IsNumeral)
    (hd : d.IsNumeral) (hzero : d ≠ "0") (hone : d ≠ "1") (texts : List Text) :
    ∃ out, renderFraction ⟨reg, .unicode, peers⟩ ⟨"frac", [n, d], texts⟩ = .ok out ∧
      IsFraction ⟨reg, .unicode, peers⟩ n d out := by
  obtain ⟨hfrac, hsup, hsub⟩ := table?_fractions htables
  let scope : Scope := ⟨reg, .unicode, peers⟩
  obtain ⟨raised, hraised⟩ : ∃ raised, scope.lookupEach "sup" n = .ok raised := by
    refine (Scope.exists_lookupEach_iff hsup).mpr fun c hc => ?_
    obtain ⟨u, hu, rfl⟩ := hn.exists_of_mem_characters hc
    exact (digit_mem_keys hu).1
  obtain ⟨lowered, hlowered⟩ : ∃ lowered, scope.lookupEach "sub" d = .ok lowered := by
    refine (Scope.exists_lookupEach_iff hsub).mpr fun c hc => ?_
    obtain ⟨u, hu, rfl⟩ := hd.exists_of_mem_characters hc
    exact (digit_mem_keys hu).2
  have hslash : scope.lookup "math" "frac" = .ok [fractionSlash] := by
    refine (htables.lookup_eq_ok_iff (List.mem_of_getElem? (i := 3) rfl) rfl).mpr ?_
    decide +kernel
  show ∃ out, fraction scope "frac" n.trim d.trim = .ok out ∧ _
  simp only [fraction, hn.trim_eq, hd.trim_eq, if_neg hzero, if_neg hone]
  cases hglyph : fractions.get? (n ++ "/" ++ d) with
  | some glyph =>
      have hlookup : scope.lookup "frac" (n ++ "/" ++ d) = .ok glyph :=
        (Scope.lookup_eq_ok_iff hfrac).mpr (OrderedMap.mem_entries_iff.mpr hglyph)
      exact ⟨glyph, by rw [hlookup], .precomposed hlookup⟩
  | none =>
      have hlookup : scope.lookup "frac" (n ++ "/" ++ d) =
          .error (.noEntry .unicode "frac" (n ++ "/" ++ d)) := by
        rw [Scope.lookup, Registry.lookup_eq, hfrac]
        simp only [hglyph]
        rfl
      refine ⟨raised ++ [fractionSlash] ++ lowered, ?_, ?_⟩
      · rw [hlookup, hraised, hslash, hlowered]
        rfl
      · rw [List.append_assoc]
        exact .built hraised hlowered

/-- Different fractions are printed differently. -/
theorem IsFraction.unique {peers : Representation → Peer} {n d n' d' out out' : Text}
    (hn : n.IsNumeral) (hd : d.IsNumeral)
    (h : IsFraction ⟨reg, .unicode, peers⟩ n d out)
    (h' : IsFraction ⟨reg, .unicode, peers⟩ n' d' out') (heq : out = out') : n = n' ∧ d = d' := by
  obtain ⟨hfrac, hsup, hsub⟩ := table?_fractions htables
  obtain ⟨hglyphs, hsuperscripts, hsubscripts⟩ := fractionSlash_not_mem
  cases h with
  | precomposed hglyph =>
      cases h' with
      | precomposed hglyph' =>
          subst heq
          have hseparates : fractions.SeparatesKeys := by decide +kernel
          have hkeys := Scope.leftUnique_lookup hfrac hseparates hglyph hglyph'
          have hdigit : ∀ {t : Text}, t.IsNumeral → (0x2F : CodeUnit) ∉ t := by
            intro t ht hmem
            exact Bool.false_ne_true (ht _ hmem)
          rw [List.append_assoc, List.append_assoc] at hkeys
          obtain ⟨hnumerators, -, hdenominators⟩ :=
            (List.append_cons_inj_of_notMem (hdigit hn) (hdigit hd)).mp hkeys
          exact ⟨hnumerators, hdenominators⟩
      | built hraised hlowered =>
          have hglyph := hglyphs _ ((Scope.lookup_eq_ok_iff hfrac).mp hglyph)
          rw [heq] at hglyph
          exact absurd (List.mem_append_right _ (List.mem_cons_self ..)) hglyph
  | built hraised hlowered =>
      cases h' with
      | precomposed hglyph' =>
          have hglyph := hglyphs _ ((Scope.lookup_eq_ok_iff hfrac).mp hglyph')
          rw [← heq] at hglyph
          exact absurd (List.mem_append_right _ (List.mem_cons_self ..)) hglyph
      | built hraised' hlowered' =>
          obtain ⟨hraised_eq, -, hlowered_eq⟩ := (List.append_cons_inj_of_notMem
            (Scope.not_mem_of_lookupEach hsup hsuperscripts hraised)
            (Scope.not_mem_of_lookupEach hsub hsubscripts hlowered)).mp heq
          subst hraised_eq hlowered_eq
          exact ⟨Scope.eq_of_lookupEach hsup (by decide +kernel) hraised hraised',
            Scope.eq_of_lookupEach hsub (by decide +kernel) hlowered hlowered'⟩

end

end Unicode

namespace Engine

/-- Unicode prints different digits differently. The groups that look characters up print exactly
the texts of keys of their tables, each as wide as it is and no two of them in the same way. A
fraction of two numerals, with neither zero nor one below, is always printed, and no other fraction
is printed in the same way. -/
theorem unicode_separates (strict : Bool) (reg : Registry) (gs : List Glossary) :
    let e := (create strict reg).withGlossaries gs
    (∀ callee ∈ [Text.ofString "arabic", "script", "sub", "sup"], ∀ peers,
      let scope : Scope := ⟨e.registry, .unicode, peers⟩
      (∃ table, e.registry.table? .unicode callee = some table ∧
        ∀ s, (∃ t, scope.lookupEach callee s = .ok t) ↔
          ∀ c ∈ s.characters, c ∈ table.mapping.keys) ∧
      (∀ s t, scope.lookupEach callee s = .ok t → t.width = s.width) ∧
      ∀ s s' t, scope.lookupEach callee s = .ok t → scope.lookupEach callee s' = .ok t → s = s') ∧
    ∀ n d n' d' : Text, (∀ t ∈ [n, d, n', d'], t.IsNumeral) →
      (∀ t ∈ [d, d'], t ≠ "0" ∧ t ≠ "1") → ∀ texts texts',
        (∃ out, (e.target .unicode).invoke "frac" [n, d] texts = .ok out) ∧
        ((e.target .unicode).invoke "frac" [n, d] texts =
          (e.target .unicode).invoke "frac" [n', d'] texts' → n = n' ∧ d = d') := by
  intro e
  have htables : e.registry.HasTables .unicode := hasTables_withGlossaries strict reg gs .unicode
  refine ⟨?each, ?fractions⟩
  case each =>
    have hcallee : ∀ callee ∈ [Text.ofString "arabic", "script", "sub", "sup"],
        ∃ d ∈ Unicode.definitions, d.name = callee ∧
          ∃ mapping, d.mapping = some mapping ∧ mapping.SeparatesKeys := by
      simp only [List.forall_mem_cons]
      exact ⟨⟨_, List.mem_of_getElem? (i := 0) rfl, rfl, _, rfl, by decide +kernel⟩,
        ⟨_, List.mem_of_getElem? (i := 4) rfl, rfl, _, rfl, by decide +kernel⟩,
        ⟨_, List.mem_of_getElem? (i := 5) rfl, rfl, _, rfl, by decide +kernel⟩,
        ⟨_, List.mem_of_getElem? (i := 6) rfl, rfl, _, rfl, by decide +kernel⟩,
        List.forall_mem_nil _⟩
    intro callee hmem peers scope
    obtain ⟨d, hd, rfl, mapping, hmapping, hseparates⟩ := hcallee callee hmem
    have htable := htables d hd mapping hmapping
    exact ⟨⟨_, htable, fun s => Scope.exists_lookupEach_iff htable⟩,
      fun s t => Scope.width_of_lookupEach htable hseparates,
      fun s s' t => Scope.eq_of_lookupEach htable hseparates⟩
  case fractions =>
    intro n d n' d' hnumerals hdenominators texts texts'
    simp only [List.forall_mem_cons] at hnumerals hdenominators
    obtain ⟨hn, hd, hn', hd', -⟩ := hnumerals
    obtain ⟨⟨hzero, hone⟩, ⟨hzero', hone'⟩, -⟩ := hdenominators
    have hfrac : Unicode.definitions[1] ∈ Backend.definitions .unicode := List.getElem_mem _
    obtain ⟨out, hout, hfraction⟩ :=
      Unicode.exists_renderFraction htables e.peers hn hd hzero hone texts
    obtain ⟨out', hout', hfraction'⟩ :=
      Unicode.exists_renderFraction htables e.peers hn' hd' hzero' hone' texts'
    have hprinted : (e.target .unicode).invoke "frac" [n, d] texts = .ok out :=
      (invoke_builtIn strict reg gs hfrac _ _ rfl texts).trans hout
    have hprinted' : (e.target .unicode).invoke "frac" [n', d'] texts' = .ok out' :=
      (invoke_builtIn strict reg gs hfrac _ _ rfl texts').trans hout'
    refine ⟨⟨out, hprinted⟩, ?_⟩
    rw [hprinted, hprinted', Except.ok.injEq]
    exact hfraction.unique htables hn hd hfraction'

/-- Only one text is lowered to a small twelve, and one tenth and eleven tenths, which are printed
in different ways, are told apart. -/
theorem unicode_separates_sample :
    let e := (create false .empty).withGlossaries []
    let scope : Scope := ⟨e.registry, .unicode, e.peers⟩
    (∀ s t, scope.lookupEach "sub" "12" = .ok t → scope.lookupEach "sub" s = .ok t →
      t.width = 2 ∧ s = "12") ∧
      (e.target .unicode).invoke "frac" ["1", "10"] [] = .ok "⅒" ∧
      (e.target .unicode).invoke "frac" ["11", "10"] [] = .ok "¹¹⁄₁₀" ∧
      (e.target .unicode).invoke "frac" ["1", "10"] [] ≠
        (e.target .unicode).invoke "frac" ["11", "10"] [] := by
  intro e scope
  obtain ⟨heach, hfractions⟩ := unicode_separates false .empty []
  obtain ⟨-, hwidth, hunique⟩ := heach "sub" (by decide) e.peers
  refine ⟨?_, by decide +kernel, by decide +kernel, ?_⟩
  · intro s t ht hs
    exact ⟨hwidth "12" t ht, hunique s "12" t hs ht⟩
  · intro heq
    have hnumerators := ((hfractions "1" "10" "11" "10" (by decide) (by decide) [] []).2 heq).1
    exact absurd hnumerators (by decide)

end Engine

end Sigil
