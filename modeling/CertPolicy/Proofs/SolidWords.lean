import CertPolicy.Proofs.Blanks
import CertPolicy.Proofs.Reserved
import CertPolicy.Token.Scan

/-!
# Scanning for words without blanks

Where every reserved word has characters and none of them is a blank, a scanner is always in
one of two situations: it holds a word, which is all that it has collected, or there is no word
in what it has collected. This module says what a character and the end of a text do in each.
-/

namespace CertPolicy
set_option autoImplicit false

namespace Vocabulary
variable {v : Vocabulary} {text : List Char} {c : Char} {k : Category} {w : Word}

/-- Every reserved word has characters, and no blank is one of them. -/
def Solid (v : Vocabulary) : Prop :=
  ∀ w ∈ v.reserved.words, w.text ≠ [] ∧ ∀ c ∈ w.text, isBlank c = false

/-- Whether a vocabulary is solid can be read off the tokens in its tables. -/
theorem solid_iff : v.Solid ↔
    ∀ t ∈ Reserved.texts v.operators v.fields, t ≠ [] ∧ ∀ c ∈ t, isBlank c = false := by
  rw [Solid, v.reserved_eq]
  constructor
  · intro h t ht
    obtain ⟨w, hw, rfl⟩ := Reserved.exists_word_of_mem_texts ht
    exact h w hw
  · intro h w hw
    exact h w.text (Reserved.text_mem_texts hw)

/-- A word that is a token at once is a parenthesis. -/
theorem mem_levels (hw : w ∈ v.reserved.words) (hhold : w.category.isHoldable = false) :
    w ∈ Reserved.levels.words := by
  rw [v.reserved_eq] at hw
  exact Reserved.mem_levels_of_ofTables hw hhold

/-- No word is reserved as a literal. -/
theorem category?_ne_literal (h : v.reserved.category? text = some k) : k ≠ .literal := by
  obtain ⟨w, hw, _, rfl⟩ := Reserved.exists_of_category? h
  intro hliteral
  have hlevel : w ∈ Reserved.levels.words := mem_levels hw (by rw [hliteral]; rfl)
  rcases Reserved.mem_levels_iff.mp hlevel with rfl | rfl
  · cases hliteral
  · cases hliteral

/-- A longer word is held for one character more. -/
theorem isHoldable_of_category? (hne : text ≠ [])
    (h : v.reserved.category? (text ++ [c]) = some k) : k.isHoldable = true := by
  obtain ⟨w, hw, hwtext, rfl⟩ := Reserved.exists_of_category? h
  by_contra hhold
  rw [Bool.not_eq_true] at hhold
  have hone := Reserved.length_of_mem_levels (mem_levels hw hhold)
  have hpos := List.length_pos_iff.mpr hne
  rw [hwtext, List.length_append, List.length_singleton] at hone
  omega

namespace Solid

theorem nonempty (hv : v.Solid) : ∀ w ∈ v.reserved.words, w.text ≠ [] :=
  fun w hw => (hv w hw).1

theorem category?_eq_none (hv : v.Solid) (hc : c ∈ text) (hblank : isBlank c = true) :
    v.reserved.category? text = none := by
  rw [Reserved.category?_eq_none_iff]
  rintro w hw rfl
  have hnot := (hv w hw).2 c hc
  rw [hblank] at hnot
  cases hnot

/-- A blank does not complete a word. -/
theorem find?_concat (hv : v.Solid) (hnone : v.reserved.find? text = none)
    (hblank : isBlank c = true) : v.reserved.find? (text ++ [c]) = none := by
  rw [Reserved.find?_eq_none_iff] at hnone ⊢
  intro w hw hin
  rcases List.infix_concat_iff.mp hin with hsuffix | hin
  · rcases List.suffix_concat_iff.mp hsuffix with hnil | ⟨p, hp, _⟩
    · exact hv.nonempty w hw hnil
    · have hnot := (hv w hw).2 c (by simp [hp])
      rw [hblank] at hnot
      cases hnot
  · exact hnone w hw hin

/-- Words do not stand across a blank. -/
theorem find?_append_of_endsInBlank (hv : v.Solid) {s : List Char} (hs : EndsInBlank s)
    (hnone : v.reserved.find? s = none) : v.reserved.find? (s ++ text) =
      (v.reserved.find? text).map fun o => { o with before := s ++ o.before } := by
  apply Reserved.find?_append
  intro p hp hne
  rw [Reserved.wordAt?_eq_none_iff]
  intro w hw hpre
  rcases List.prefix_or_prefix_of_prefix hpre (List.prefix_append p text) with hwp | hpw
  · exact Reserved.find?_eq_none_iff.mp hnone w hw (hwp.isInfix.trans hp.isInfix)
  · have hlast : p.getLast? = s.getLast? := by
      obtain ⟨t, rfl⟩ := hp
      rw [List.getLast?_append_of_ne_nil t hne]
    have hmem : p.getLast hne ∈ p := List.getLast_mem hne
    have hblank := hs (p.getLast hne) (by
      rw [← hlast, List.getLast?_eq_some_getLast hne]
      exact rfl)
    have hnot := (hv w hw).2 _ (hpw.subset hmem)
    rw [hblank] at hnot
    cases hnot

end Solid
end Vocabulary

theorem Token.literals_concat {c : Char} (hc : isBlank c = true) (text : List Char) :
    literals (text ++ [c]) = literals text := by
  rw [literals, literals, trim_concat hc]

namespace Scanner
variable {v : Vocabulary} {s : Scanner} {buffer : List Char} {c : Char} {k : Category}
  {splitLiterals : Bool}

theorem run_cons (r : Reserved) (splitLiterals : Bool) (s : Scanner) (c : Char)
    (text : List Char) : s.run r splitLiterals (c :: text) =
      (s.step r splitLiterals c).1 ++ (s.step r splitLiterals c).2.run r splitLiterals text :=
  rfl

/-- A word is held that makes up the buffer, or there is no word in the buffer. -/
structure Settled (r : Reserved) (s : Scanner) : Prop where
  searched : s.held = none → r.find? s.buffer = none
  word : ∀ k, s.held = some k → r.category? s.buffer = some k ∧ k.isHoldable = true

theorem settled_word {r : Reserved} (hk : r.category? buffer = some k)
    (hhold : k.isHoldable = true) : Settled r ⟨buffer, some k⟩ := by
  refine ⟨fun hnone => (nomatch hnone), ?_⟩
  intro k' hk'
  obtain rfl := Option.some.inj hk'
  exact ⟨hk, hhold⟩

theorem settled_text {r : Reserved} (hnone : r.find? buffer = none) :
    Settled r ⟨buffer, none⟩ :=
  ⟨fun _ => hnone, fun _ hk => nomatch hk⟩

theorem settled_start (hv : v.Solid) : start.Settled v.reserved :=
  settled_text (Reserved.find?_nil_eq_none hv.nonempty)

theorem buffer_ne_nil (hv : v.Solid) (hs : s.Settled v.reserved) (hk : s.held = some k) :
    s.buffer ≠ [] := by
  intro hnil
  have hword := (hs.word k hk).1
  rw [hnil, Reserved.category?_nil hv.nonempty] at hword
  cases hword

/-- Where a word comes up, it is taken from the buffer as it is. -/
theorem cut_of_find? (hv : v.Solid) (hnone : v.reserved.find? buffer = none) {o : Occurrence}
    (ho : v.reserved.find? (buffer ++ [c]) = some o) :
    cut v.reserved (buffer ++ [c]) =
      if o.word.category.isHoldable then
        (Token.literals o.before, ⟨o.word.text, some o.word.category⟩)
      else (Token.literals o.before ++ [.ofChars o.word.text o.word.category], start) := by
  obtain ⟨_, hat, _⟩ := Reserved.find?_eq_some_iff.mp ho
  have hblank := (hv o.word (Reserved.mem_of_wordAt? hat).1).2
  simp only [cut, ho, Reserved.rest_eq_word hnone ho, trim_eq_self hblank,
    Reserved.category?_of_wordAt? hat, Option.getD_some]

theorem cut_of_category? (hv : v.Solid) (hnone : v.reserved.find? buffer = none)
    (hk : v.reserved.category? (buffer ++ [c]) = some k) :
    cut v.reserved (buffer ++ [c]) =
      if k.isHoldable then ([], ⟨buffer ++ [c], some k⟩)
      else ([.ofChars (buffer ++ [c]) k], start) :=
  cut_of_find? hv hnone (Reserved.find?_of_category? hnone hk)

theorem cut_of_find?_none {r : Reserved} (hnone : r.find? buffer = none) :
    cut r buffer = ([], ⟨buffer, none⟩) := by
  rw [cut, hnone]

/-- Without a held word, a blank may end a literal; otherwise the buffer is searched. -/
theorem step_of_unheld (hv : v.Solid) (hs : s.Settled v.reserved) (hheld : s.held = none) :
    s.step v.reserved splitLiterals c =
      if splitLiterals && isBlank c then (Token.literals (s.buffer ++ [c]), start)
      else cut v.reserved (s.buffer ++ [c]) := by
  have hnone := hs.searched hheld
  cases hblank : isBlank c with
  | true =>
    have hmem : c ∈ s.buffer ++ [c] := List.mem_append_right _ List.mem_cons_self
    have hcut := cut_of_find?_none (hv.find?_concat hnone hblank)
    simp only [step, hv.category?_eq_none hmem hblank, extend, hheld, hcut, hblank]
    cases splitLiterals <;> rfl
  | false =>
    simp only [step, hheld, hblank, Bool.and_false, Bool.false_and]
    -- A buffer that becomes a word needs no case of its own: the search finds just that word.
    cases hcategory : v.reserved.category? (s.buffer ++ [c]) with
    | none =>
      rw [extend, hheld]
      rfl
    | some k =>
      rw [cut_of_category? hv hnone hcategory]
      rfl

/-- A held word goes on with the next character, or else it is a token. -/
theorem step_of_held (hv : v.Solid) (hs : s.Settled v.reserved) (hheld : s.held = some k) :
    s.step v.reserved splitLiterals c =
      match v.reserved.category? (s.buffer ++ [c]) with
      | some longer => ([], ⟨s.buffer ++ [c], some longer⟩)
      | none =>
        if splitLiterals && isBlank c then ([.ofChars s.buffer k], start)
        else settle v.reserved s.buffer k c := by
  unfold step
  cases hcategory : v.reserved.category? (s.buffer ++ [c]) with
  | some longer =>
    have hhold := Vocabulary.isHoldable_of_category? (buffer_ne_nil hv hs hheld) hcategory
    simp only [hhold, if_true]
  | none =>
    simp only [extend, hheld]
    cases hblank : isBlank c with
    | true =>
      have hnext : v.reserved.category? [c] = none :=
        hv.category?_eq_none List.mem_cons_self hblank
      have hliterals : Token.literals [c] = [] := Token.literals_concat hblank []
      simp only [settle, hnext, hliterals]
      cases splitLiterals <;> rfl
    | false => simp

theorem finish_of_unheld (hs : s.Settled v.reserved) (hheld : s.held = none) :
    s.finish v.reserved = Token.literals s.buffer := by
  have hnone : v.reserved.find? (trim s.buffer) = none :=
    Reserved.find?_eq_none_of_isInfix (hs.searched hheld) (isInfix_trim s.buffer)
  rw [finish, Token.literals, Reserved.category?_eq_none_of_find? hnone]
  rfl

theorem finish_of_held (hv : v.Solid) (hs : s.Settled v.reserved) (hheld : s.held = some k) :
    s.finish v.reserved = [.ofChars s.buffer k] := by
  obtain ⟨hk, _⟩ := hs.word k hheld
  obtain ⟨w, hw, hwtext, _⟩ := Reserved.exists_of_category? hk
  have hblank := (hv w hw).2
  have hne := buffer_ne_nil hv hs hheld
  rw [hwtext] at hblank
  rw [finish, trim_eq_self hblank, hk, if_neg (by simpa using hne)]
  rfl

theorem settled_cut (hv : v.Solid) (hnone : v.reserved.find? buffer = none) (c : Char) :
    (cut v.reserved (buffer ++ [c])).2.Settled v.reserved := by
  cases ho : v.reserved.find? (buffer ++ [c]) with
  | none =>
    rw [cut_of_find?_none ho]
    exact settled_text ho
  | some o =>
    rw [cut_of_find? hv hnone ho]
    split
    · rename_i hhold
      obtain ⟨_, hat, _⟩ := Reserved.find?_eq_some_iff.mp ho
      exact settled_word (Reserved.category?_of_wordAt? hat) hhold
    · exact settled_start hv

theorem settled_step (hv : v.Solid) (hs : s.Settled v.reserved) (splitLiterals : Bool)
    (c : Char) : (s.step v.reserved splitLiterals c).2.Settled v.reserved := by
  cases hheld : s.held with
  | none =>
    rw [step_of_unheld hv hs hheld]
    split
    · exact settled_start hv
    · exact settled_cut hv (hs.searched hheld) c
  | some k =>
    rw [step_of_held hv hs hheld]
    cases hcategory : v.reserved.category? (s.buffer ++ [c]) with
    | some longer =>
      have hne := buffer_ne_nil hv hs hheld
      exact settled_word hcategory (Vocabulary.isHoldable_of_category? hne hcategory)
    | none =>
      simp only
      split
      · exact settled_start hv
      · unfold settle
        cases hnext : v.reserved.category? [c] with
        | some next => exact settled_start hv
        | none => exact settled_text (Reserved.find?_singleton hv.nonempty hnext)

end Scanner
end CertPolicy
