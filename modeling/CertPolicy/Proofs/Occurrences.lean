import Mathlib.Data.List.Induction
import CertPolicy.Proofs.Utf8

/-!
# The first place where a reserved word stands

A search in a table of reserved words can ask the words one after another for their first place in
the text and keep the earliest answer (`Reserved.earliest?`); an answer at the same place does not
replace an earlier one. It finds what the walk along the text finds, whatever the order of the
words. The order decides which of the words at the first place is found: in a table of a vocabulary
longer words come first, so it is the longest. Places are numbers of bytes here, and a word can
stand only where a character begins.
-/

namespace CertPolicy
set_option autoImplicit false

/-- The same occurrence with one more character in front. -/
def Occurrence.behind (c : Char) (o : Occurrence) : Occurrence :=
  { o with before := c :: o.before }

/-- The first place where a word stands in a text. -/
def Word.first? (w : Word) (text : List Char) : Option Occurrence :=
  if w.text.isPrefixOf text then some ⟨[], w, text⟩
  else
    match text with
    | [] => none
    | c :: rest => (w.first? rest).map (.behind c)

namespace Occurrence

/-- An occurrence that is found later counts only if it stands at an earlier place. -/
def keep (best found : Option Occurrence) : Option Occurrence :=
  match best, found with
  | none, found => found
  | some b, none => some b
  | some b, some o => if o.offset < b.offset then some o else some b

theorem offset_behind (c : Char) (o : Occurrence) :
    (o.behind c).offset = c.utf8Size + o.offset := rfl

/-- Nothing stands in front of the beginning. -/
theorem keep_some_nil (w : Word) (text : List Char) (found : Option Occurrence) :
    keep (some ⟨[], w, text⟩) found = some ⟨[], w, text⟩ := by
  cases found with
  | none => rfl
  | some o =>
    unfold keep
    exact if_neg (Nat.not_lt_zero _)

theorem keep_map_behind (c : Char) (best found : Option Occurrence) :
    keep (best.map (behind c)) (found.map (behind c)) = (keep best found).map (behind c) := by
  cases best with
  | none => rfl
  | some b =>
    cases found with
    | none => rfl
    | some o =>
      simp only [keep, Option.map_some, offset_behind, Nat.add_lt_add_iff_left]
      split
      · rfl
      · rfl

end Occurrence

namespace Reserved
variable {r : Reserved} {text : List Char} {o : Occurrence}

/-- Asks the words one after another for their first place and keeps the earliest one. -/
def earliest? (r : Reserved) (text : List Char) : Option Occurrence :=
  r.words.foldl (fun best w => Occurrence.keep best (w.first? text)) none

theorem wordAt?_concat (words : List Word) (w : Word) (text : List Char) :
    (Reserved.mk (words ++ [w])).wordAt? text =
      ((Reserved.mk words).wordAt? text).or (if w.text.isPrefixOf text then some w else none) := by
  rw [wordAt?, wordAt?, List.find?_append, List.find?_singleton]

/-- With one more word at the end of a table, a search finds what it found before, unless that word
stands at an earlier place. -/
theorem find?_concat_word (words : List Word) (w : Word) (text : List Char) :
    (Reserved.mk (words ++ [w])).find? text =
      Occurrence.keep ((Reserved.mk words).find? text) (w.first? text) := by
  induction text with
  | nil =>
    rw [find?_nil, find?_nil, wordAt?_concat, Word.first?]
    cases (Reserved.mk words).wordAt? [] with
    | some v => exact (Occurrence.keep_some_nil v [] _).symm
    | none =>
      split
      · rfl
      · rfl
  | cons c rest ih =>
    rw [find?_cons, find?_cons, wordAt?_concat, Word.first?]
    cases hword : (Reserved.mk words).wordAt? (c :: rest) with
    | some v => exact (Occurrence.keep_some_nil v (c :: rest) _).symm
    | none =>
      by_cases hw : w.text.isPrefixOf (c :: rest)
      · rw [if_pos hw, if_pos hw]
        cases (Reserved.mk words).find? rest with
        | none => rfl
        | some b =>
          -- The first character puts any other occurrence behind the beginning.
          have hlt : 0 < c.utf8Size + b.offset := Nat.add_pos_left c.utf8Size_pos _
          exact (if_pos hlt).symm
      · rw [if_neg hw, if_neg hw]
        simp only [Option.or_none]
        rw [ih]
        exact (Occurrence.keep_map_behind c _ _).symm

theorem earliest?_eq_find? (r : Reserved) (text : List Char) : r.earliest? text = r.find? text := by
  obtain ⟨words⟩ := r
  induction words using List.reverseRecOn with
  | nil =>
    symm
    apply find?_eq_none_iff.mpr
    intro w hw
    cases hw
  | append_singleton words w ih =>
    rw [find?_concat_word, ← ih, earliest?, List.foldl_append]
    rfl

theorem find?_eq_none_iff_standsAt :
    r.find? text = none ↔ ∀ w ∈ r.words, ∀ n, ¬ Utf8.StandsAt w.text text n := by
  simp only [find?_eq_none_iff, Utf8.isInfix_iff_standsAt, not_exists]

theorem standsAt_of_find? (h : r.find? text = some o) :
    o.word ∈ r.words ∧ Utf8.StandsAt o.word.text text o.offset := by
  obtain ⟨htext, hat, _⟩ := find?_eq_some_iff.mp h
  obtain ⟨hw, hpre⟩ := mem_of_wordAt? hat
  refine ⟨hw, ?_⟩
  rw [← htext]
  exact Utf8.standsAt_append_iff.mpr hpre

/-- No word stands in front of the place that is found, at whatever byte. -/
theorem le_of_standsAt {w : Word} {n : Nat} (h : r.find? text = some o) (hw : w ∈ r.words)
    (hn : Utf8.StandsAt w.text text n) : o.offset ≤ n := by
  obtain ⟨htext, hat, hnone⟩ := find?_eq_some_iff.mp h
  by_cases hempty : w.text = []
  · -- The empty word stands at the very beginning, and nothing is found behind it.
    have hbefore : o.before = [] := by
      by_contra hne
      have hmiss := hnone o.before List.suffix_rfl hne
      exact wordAt?_eq_none_iff.mp hmiss w hw (hempty ▸ List.nil_prefix)
    rw [Occurrence.offset, hbefore]
    exact Nat.zero_le n
  · obtain ⟨before, rest, hsplit, rfl, hrest⟩ := (Utf8.standsAt_iff hempty).mp hn
    rcases List.prefix_or_prefix_of_prefix (List.prefix_append before rest)
        (hsplit ▸ htext ▸ List.prefix_append o.before o.rest) with hle | hle
    · obtain ⟨p, hp⟩ := hle
      by_cases hpnil : p = []
      · rw [hpnil, List.append_nil] at hp
        exact Nat.le_of_eq (congrArg Utf8.size hp.symm)
      · have hmiss := hnone p ⟨before, hp⟩ hpnil
        have hrest' : rest = p ++ o.rest := by
          rw [← htext, ← hp, List.append_assoc] at hsplit
          exact List.append_cancel_left hsplit
        rw [hrest'] at hrest
        exact absurd hrest (wordAt?_eq_none_iff.mp hmiss w hw)
    · exact Utf8.size_le hle

/-- Among the words at the place that is found, the one that is found is the longest. -/
theorem size_le_of_standsAt {w : Word} (hordered : Ordered r.words) (h : r.find? text = some o)
    (hw : w ∈ r.words) (hn : Utf8.StandsAt w.text text o.offset) : w.size ≤ o.word.size := by
  obtain ⟨htext, hat, _⟩ := find?_eq_some_iff.mp h
  rw [← htext, Occurrence.offset, Utf8.standsAt_append_iff] at hn
  exact Utf8.size_le (prefix_of_wordAt? hordered hat hw hn)

end Reserved

/-- A search in the words of a vocabulary, which finds what asking the words one by one finds, fails
exactly if no word stands anywhere in the text. Otherwise it finds a word where a character begins,
with its category; no word stands in front of it, and no longer one at its place. -/
theorem Vocabulary.find?_leftmost_longest (v : Vocabulary) (text : List Char) :
    v.reserved.earliest? text = v.reserved.find? text ∧
    (v.reserved.find? text = none ↔
      ∀ w ∈ v.reserved.words, ∀ n, ¬ Utf8.StandsAt w.text text n) ∧
    ∀ o, v.reserved.find? text = some o →
      o.word ∈ v.reserved.words ∧
      Utf8.StandsAt o.word.text text o.offset ∧ Utf8.IsBoundary text o.offset ∧
      (∀ w ∈ v.reserved.words, ∀ n, n < o.offset → ¬ Utf8.StandsAt w.text text n) ∧
      (∀ w ∈ v.reserved.words, Utf8.StandsAt w.text text o.offset → w.size ≤ o.word.size) ∧
      v.reserved.category? o.word.text = some o.word.category := by
  refine ⟨Reserved.earliest?_eq_find? _ _, Reserved.find?_eq_none_iff_standsAt, ?_⟩
  intro o h
  have hordered : Reserved.Ordered v.reserved.words := by
    rw [v.reserved_eq]
    exact Reserved.ordered_ofTables
  obtain ⟨htext, hat, _⟩ := Reserved.find?_eq_some_iff.mp h
  obtain ⟨hw, hstands⟩ := Reserved.standsAt_of_find? h
  refine ⟨hw, hstands, ⟨o.before, htext ▸ List.prefix_append _ _, rfl⟩, ?_, ?_, ?_⟩
  · intro w hw n hlt hn
    exact absurd (Reserved.le_of_standsAt h hw hn) (Nat.not_le.mpr hlt)
  · intro w hw hn
    exact Reserved.size_le_of_standsAt hordered h hw hn
  · exact Reserved.category?_of_wordAt? hat

/-- Both words begin behind the two bytes of the first character. -/
theorem Vocabulary.find?_leftmost_longest_accents :
    (ofTables ⟨[⟨"é", .logicalNot, .unary⟩, ⟨"éa", .equals, .binary⟩]⟩ .empty).reserved.find?
      ['ß', 'é', 'a'] = some ⟨['ß'], ⟨['é', 'a'], .operator⟩, ['é', 'a']⟩ ∧
    Utf8.StandsAt ['é', 'a'] ['ß', 'é', 'a'] 2 ∧ Utf8.IsBoundary ['ß', 'é', 'a'] 2 ∧
    ¬ Utf8.StandsAt ['é'] ['ß', 'é', 'a'] 1 ∧ Word.size ⟨['é'], .operator⟩ ≤ 3 := by
  have hfind : (ofTables ⟨[⟨"é", .logicalNot, .unary⟩, ⟨"éa", .equals, .binary⟩]⟩
      .empty).reserved.find? ['ß', 'é', 'a'] =
        some ⟨['ß'], ⟨['é', 'a'], .operator⟩, ['é', 'a']⟩ := by decide +kernel
  have hword : Word.mk ['é'] .operator ∈
      (ofTables ⟨[⟨"é", .logicalNot, .unary⟩, ⟨"éa", .equals, .binary⟩]⟩
        .empty).reserved.words := by decide +kernel
  obtain ⟨_, _, hall⟩ := find?_leftmost_longest (ofTables
    ⟨[⟨"é", .logicalNot, .unary⟩, ⟨"éa", .equals, .binary⟩]⟩ .empty) ['ß', 'é', 'a']
  obtain ⟨_, hstands, hboundary, hbefore, hlongest, _⟩ := hall _ hfind
  refine ⟨hfind, hstands, hboundary, hbefore _ hword 1 (by decide), ?_⟩
  apply hlongest _ hword
  exact Utf8.standsAt_append_iff.mpr (List.prefix_append ['é'] ['a'])

end CertPolicy
