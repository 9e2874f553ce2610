import CertPolicy.Proofs.SolidWords
import CertPolicy.Proofs.StandardScan

/-!
# Where texts can be cut

A character separates two texts if a scanner does at it what it does at the end of a text, and
begins anew behind it. A blank is such a character if it ends literals; a parenthesis is one if
it is a level and stands in no longer word, and it is a token of its own then.
-/

namespace CertPolicy
set_option autoImplicit false

/-- The parentheses are levels, and no other word holds one. -/
structure Reserved.LevelsApart (r : Reserved) : Prop where
  opening : r.category? ['('] = some .startLevel
  closing : r.category? [')'] = some .endLevel
  apart : ∀ w ∈ r.words, '(' ∈ w.text ∨ ')' ∈ w.text → w.text = ['('] ∨ w.text = [')']

namespace Reserved.LevelsApart
variable {r : Reserved} {c : Char} {k : Category} {text : List Char}

theorem category?_level (h : r.LevelsApart) (hc : ⟨[c], k⟩ ∈ levels.words) :
    r.category? [c] = some k := by
  rcases singleton_mem_levels_iff.mp hc with ⟨rfl, rfl⟩ | ⟨rfl, rfl⟩
  · exact h.opening
  · exact h.closing

theorem category?_concat (h : r.LevelsApart) (hc : ⟨[c], k⟩ ∈ levels.words) (hne : text ≠ []) :
    r.category? (text ++ [c]) = none := by
  rw [category?_eq_none_iff]
  intro w hw hwtext
  have hmem : c ∈ w.text := by
    rw [hwtext]
    exact List.mem_append_right _ List.mem_cons_self
  have hlength : w.text.length = text.length + 1 := by
    rw [hwtext, List.length_append, List.length_singleton]
  have hone : w.text.length = 1 := by
    have hholds : '(' ∈ w.text ∨ ')' ∈ w.text := by
      rcases singleton_mem_levels_iff.mp hc with ⟨rfl, _⟩ | ⟨rfl, _⟩
      · exact Or.inl hmem
      · exact Or.inr hmem
    rcases h.apart w hw hholds with heq | heq
    · rw [heq, List.length_singleton]
    · rw [heq, List.length_singleton]
  have hpos := List.length_pos_iff.mpr hne
  omega

/-- A parenthesis is found as soon as it is read. -/
theorem find?_concat (h : r.LevelsApart) (hne : ∀ w ∈ r.words, w.text ≠ [])
    (hc : ⟨[c], k⟩ ∈ levels.words) (hnone : r.find? text = none) :
    r.find? (text ++ [c]) = some ⟨text, ⟨[c], k⟩, [c]⟩ := by
  have hnil : r.find? [] = none := find?_nil_eq_none hne
  have hword := find?_of_category? hnil (h.category?_level hc)
  apply find?_eq_some_iff.mpr
  refine ⟨rfl, (find?_eq_some_iff.mp hword).2.1, ?_⟩
  -- A word at an earlier place ends in front of the parenthesis, where none was found, or holds it.
  intro p hp hpne
  rw [wordAt?_eq_none_iff]
  intro w hw hpre
  rcases List.prefix_concat_iff.mp hpre with heq | hpre
  · exact category?_eq_none_iff.mp (h.category?_concat hc hpne) w hw heq
  · exact find?_eq_none_iff.mp hnone w hw (hpre.isInfix.trans hp.isInfix)

end Reserved.LevelsApart

namespace Reserved

theorem alone_standardTexts :
    (standardTexts.all fun t => t.all (fun c => c != '(' && c != ')') || t.length == 1) = true := by
  decide +kernel

theorem levelsApart_standard : Vocabulary.standard.reserved.LevelsApart := by
  refine ⟨?_, ?_, ?_⟩
  · rw [Vocabulary.category?_reserved]
    decide +kernel
  · rw [Vocabulary.category?_reserved]
    decide +kernel
  · intro w hw hholds
    have hmem : w.text ∈ texts .standard .standard := text_mem_texts hw
    rw [texts_standard] at hmem
    have hone : w.text.length = 1 := by
      have halone := List.all_eq_true.mp alone_standardTexts w.text hmem
      rw [Bool.or_eq_true, List.all_eq_true, beq_iff_eq] at halone
      apply halone.resolve_left
      intro hnone
      rcases hholds with h | h
      · exact absurd (hnone _ h) (by decide)
      · exact absurd (hnone _ h) (by decide)
    obtain ⟨c, hc⟩ := List.length_eq_one_iff.mp hone
    rw [hc] at hholds ⊢
    simpa [eq_comm] using hholds

end Reserved

namespace Scanner
variable {v : Vocabulary} {s : Scanner} {c : Char} {k : Category} {splitLiterals : Bool}
  {tokens : List Token}

/-- A scanner finishes at the character, which adds some tokens of its own. -/
def Separates (r : Reserved) (splitLiterals : Bool) (c : Char) (tokens : List Token) : Prop :=
  ∀ s : Scanner, s.Settled r → s.step r splitLiterals c = (s.finish r ++ tokens, start)

theorem separates_blank (hv : v.Solid) (hc : isBlank c = true) :
    Separates v.reserved true c [] := by
  intro s hs
  rw [List.append_nil]
  cases hheld : s.held with
  | none =>
    rw [step_of_unheld hv hs hheld, finish_of_unheld hs hheld, hc, Token.literals_concat hc]
    rfl
  | some k =>
    have hmem : c ∈ s.buffer ++ [c] := List.mem_append_right _ List.mem_cons_self
    rw [step_of_held hv hs hheld, finish_of_held hv hs hheld, hc, hv.category?_eq_none hmem hc]
    rfl

theorem separates_level (hv : v.Solid) (hlevels : v.reserved.LevelsApart)
    (hc : ⟨[c], k⟩ ∈ Reserved.levels.words) (splitLiterals : Bool) :
    Separates v.reserved splitLiterals c [.ofChars [c] k] := by
  have ⟨hblank, hhold⟩ : isBlank c = false ∧ k.isHoldable = false := by
    rcases Reserved.singleton_mem_levels_iff.mp hc with ⟨rfl, rfl⟩ | ⟨rfl, rfl⟩
    · decide
    · decide
  intro s hs
  cases hheld : s.held with
  | none =>
    have hnone := hs.searched hheld
    have hfind := hlevels.find?_concat hv.nonempty hc hnone
    rw [step_of_unheld hv hs hheld, finish_of_unheld hs hheld, cut_of_find? hv hnone hfind]
    simp [hblank, hhold]
  | some word =>
    have hcategory := hlevels.category?_concat hc (buffer_ne_nil hv hs hheld)
    rw [step_of_held hv hs hheld, finish_of_held hv hs hheld, hcategory]
    simp [hblank, settle, hlevels.category?_level hc]

theorem run_append_cons (hv : v.Solid) (hc : Separates v.reserved splitLiterals c tokens)
    (hs : s.Settled v.reserved) (text rest : List Char) :
    s.run v.reserved splitLiterals (text ++ c :: rest) =
      s.run v.reserved splitLiterals text ++ tokens ++
        start.run v.reserved splitLiterals rest := by
  induction text generalizing s with
  | nil =>
    rw [List.nil_append, run_cons, hc s hs]
    rfl
  | cons d text ih =>
    have hnext := settled_step hv hs splitLiterals d
    rw [List.cons_append, run_cons, run_cons, ih hnext]
    simp only [List.append_assoc]

end Scanner

namespace Token
variable {v : Vocabulary} {s : String} {c : Char} {splitLiterals : Bool} {tokens : List Token}

theorem scan_append_separator (hv : v.Solid) (hs : '\x00' ∉ s.toList) (hnul : c ≠ '\x00')
    (hc : Scanner.Separates v.reserved splitLiterals c tokens) (t : String) :
    scan v.reserved splitLiterals (s ++ String.singleton c ++ t) =
      scan v.reserved splitLiterals s ++ tokens ++ scan v.reserved splitLiterals t := by
  have htext : beforeNul (s ++ String.singleton c ++ t).toList =
      s.toList ++ c :: beforeNul t.toList := by
    have hmem : '\x00' ∉ [c] := by simpa using hnul.symm
    rw [String.toList_append, String.toList_append, String.toList_singleton, List.append_assoc,
      beforeNul_append hs, beforeNul_append hmem, List.singleton_append]
  rw [scan, htext, Scanner.run_append_cons hv hc (Scanner.settled_start hv), scan, scan,
    beforeNul_eq_self hs]

/-- The tokens of two texts with a separator between them are those of the one text, the
separator if it is a token, and those of the other text. -/
theorem scan_separated (hv : v.Solid) (hs : '\x00' ∉ s.toList) (t : String) :
    (∀ c, isBlank c = true →
      scan v.reserved true (s ++ String.singleton c ++ t) =
        scan v.reserved true s ++ scan v.reserved true t) ∧
    (v.reserved.LevelsApart → ∀ splitLiterals c k, ⟨[c], k⟩ ∈ Reserved.levels.words →
      scan v.reserved splitLiterals (s ++ String.singleton c ++ t) =
        scan v.reserved splitLiterals s ++ [.ofChars [c] k] ++
          scan v.reserved splitLiterals t) := by
  constructor
  · intro c hc
    have hnul : c ≠ '\x00' := by
      rintro rfl
      cases hc
    rw [scan_append_separator hv hs hnul (Scanner.separates_blank hv hc),
      List.append_nil]
  · intro hlevels splitLiterals c k hc
    have hnul : c ≠ '\x00' := by
      rcases Reserved.singleton_mem_levels_iff.mp hc with ⟨rfl, _⟩ | ⟨rfl, _⟩
      · decide
      · decide
    have hseparates := Scanner.separates_level hv hlevels hc splitLiterals
    exact scan_append_separator hv hs hnul hseparates t

/-- The operator `!` is held in front of the blank and in front of the parenthesis. -/
theorem scan_separated_negation :
    scan Vocabulary.standard.reserved true ("a!" ++ String.singleton ' ' ++ "=(b") =
      scan Vocabulary.standard.reserved true "a!" ++
        scan Vocabulary.standard.reserved true "=(b" ∧
    scan Vocabulary.standard.reserved false ("a b!" ++ String.singleton '(' ++ "= c") =
      scan Vocabulary.standard.reserved false "a b!" ++ [.ofChars ['('] .startLevel] ++
        scan Vocabulary.standard.reserved false "= c" := by
  have hv := Vocabulary.solid_standard
  constructor
  · exact (scan_separated hv (by decide) "=(b").1 ' ' (by decide)
  · exact (scan_separated hv (by decide) "= c").2 Reserved.levelsApart_standard false '('
      .startLevel (by decide)

end Token
end CertPolicy
