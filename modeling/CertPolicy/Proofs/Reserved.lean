import Mathlib.Data.List.Basic
import CertPolicy.Vocabulary

/-!
# Looking for reserved words

What a lookup and a search in a table of reserved words find, in terms of the words that the
table holds, and which words the table of a vocabulary holds. The order of the table matters
for one thing only: of the words that a text begins with, the first one is the longest.
-/

namespace CertPolicy
set_option autoImplicit false

namespace Utf8

theorem size_append (s t : List Char) : size (s ++ t) = size s + size t := by
  induction s with
  | nil => simp [size]
  | cons c s ih =>
    rw [List.cons_append, size, size, ih]
    omega

theorem eq_nil_of_size_eq_zero {text : List Char} (h : size text = 0) : text = [] := by
  cases text with
  | nil => rfl
  | cons c text =>
    have hpos := c.utf8Size_pos
    rw [size] at h
    omega

end Utf8

namespace Reserved
variable {r : Reserved} {text : List Char} {v w : Word} {k : Category}

theorem category?_eq_none_iff : r.category? text = none ↔ ∀ w ∈ r.words, w.text ≠ text := by
  simp [category?]

theorem exists_of_category? (h : r.category? text = some k) :
    ∃ w ∈ r.words, w.text = text ∧ w.category = k := by
  obtain ⟨w, hfind, hk⟩ := Option.map_eq_some_iff.mp h
  refine ⟨w, List.mem_of_find?_eq_some hfind, ?_, hk⟩
  simpa using List.find?_some hfind

theorem wordAt?_eq_none_iff : r.wordAt? text = none ↔ ∀ w ∈ r.words, ¬ w.text <+: text := by
  simp [wordAt?]

theorem mem_of_wordAt? (h : r.wordAt? text = some w) : w ∈ r.words ∧ w.text <+: text := by
  refine ⟨List.mem_of_find?_eq_some h, ?_⟩
  simpa using List.find?_some h

/-- The word that a text begins with has the category that its own lookup gives. -/
theorem category?_of_wordAt? (h : r.wordAt? text = some w) :
    r.category? w.text = some w.category := by
  have hpre := (mem_of_wordAt? h).2
  obtain ⟨_, as, bs, hwords, has⟩ := List.find?_eq_some_iff_append.mp h
  refine Option.map_eq_some_iff.mpr ⟨w, List.find?_eq_some_iff_append.mpr ?_, rfl⟩
  refine ⟨by simp, as, bs, hwords, ?_⟩
  intro v hv
  have hnot := has v hv
  simp only [Bool.not_eq_eq_eq_not, Bool.not_true, beq_eq_false_iff_ne] at hnot ⊢
  rintro heq
  rw [heq, ← Bool.not_eq_true, List.isPrefixOf_iff_prefix] at hnot
  exact hnot hpre

theorem find?_eq_none_iff : r.find? text = none ↔ ∀ w ∈ r.words, ¬ w.text <:+: text := by
  induction text with
  | nil => simp [find?_nil, wordAt?_eq_none_iff]
  | cons c rest ih =>
    rw [find?_cons]
    cases hword : r.wordAt? (c :: rest) with
    | some w =>
      obtain ⟨hw, hpre⟩ := mem_of_wordAt? hword
      simp only [reduceCtorEq, false_iff]
      exact fun h => h w hw hpre.isInfix
    | none =>
      rw [wordAt?_eq_none_iff] at hword
      simp only [Option.map_eq_none_iff, ih, List.infix_cons_iff, not_or]
      exact ⟨fun h w hw => ⟨hword w hw, h w hw⟩, fun h w hw => (h w hw).2⟩

/-- A search finds the first place where a word stands, and the word that is found there. -/
theorem find?_eq_some_iff {o : Occurrence} :
    r.find? text = some o ↔ o.before ++ o.rest = text ∧ r.wordAt? o.rest = some o.word ∧
      ∀ p, p <:+ o.before → p ≠ [] → r.wordAt? (p ++ o.rest) = none := by
  constructor
  · intro h
    refine ⟨before_append_rest h, ?_⟩
    induction text generalizing o with
    | nil =>
      rw [find?_nil] at h
      obtain ⟨w, hw, rfl⟩ := Option.map_eq_some_iff.mp h
      exact ⟨hw, fun p hp hne => absurd (List.suffix_nil.mp hp) hne⟩
    | cons c rest ih =>
      rw [find?_cons] at h
      cases hword : r.wordAt? (c :: rest) with
      | some w =>
        rw [hword] at h
        obtain rfl := Option.some.inj h
        exact ⟨hword, fun p hp hne => absurd (List.suffix_nil.mp hp) hne⟩
      | none =>
        rw [hword] at h
        obtain ⟨o', ho', rfl⟩ := Option.map_eq_some_iff.mp h
        obtain ⟨hat, hbefore⟩ := ih ho'
        refine ⟨hat, ?_⟩
        intro p hp hne
        rcases List.suffix_cons_iff.mp hp with rfl | hp
        · rw [List.cons_append, before_append_rest ho']
          exact hword
        · exact hbefore p hp hne
  · obtain ⟨before, w, rest⟩ := o
    rintro ⟨rfl, hat, hbefore⟩
    induction before with
    | nil =>
      rw [List.nil_append, find?, hat]
    | cons c before ih =>
      have hword := hbefore (c :: before) List.suffix_rfl (List.cons_ne_nil c before)
      have hrest := ih hat fun p hp => hbefore p (hp.trans (List.suffix_cons c before))
      rw [List.cons_append] at hword ⊢
      rw [find?_cons, hword, hrest]
      rfl

theorem find?_eq_none_of_isInfix {s : List Char} (h : r.find? text = none) (hs : s <:+: text) :
    r.find? s = none := by
  rw [find?_eq_none_iff] at h ⊢
  intro w hw hin
  exact h w hw (hin.trans hs)

theorem category?_eq_none_of_find? (h : r.find? text = none) : r.category? text = none := by
  rw [category?_eq_none_iff]
  rintro w hw rfl
  exact find?_eq_none_iff.mp h w hw List.infix_rfl

/-- If no word stands at the places in a text, a search there goes on behind the text. -/
theorem find?_append {s : List Char}
    (h : ∀ p, p <:+ s → p ≠ [] → r.wordAt? (p ++ text) = none) :
    r.find? (s ++ text) = (r.find? text).map fun o => { o with before := s ++ o.before } := by
  induction s with
  | nil =>
    rw [List.nil_append]
    cases r.find? text <;> rfl
  | cons c s ih =>
    have hword := h (c :: s) List.suffix_rfl (List.cons_ne_nil c s)
    rw [List.cons_append] at hword ⊢
    rw [find?_cons, hword, ih fun p hp => h p (hp.trans (List.suffix_cons c s)), Option.map_map]
    rfl

/-- The first word that a growing text comes to contain ends it. -/
theorem rest_eq_word {o : Occurrence} {c : Char} (hnone : r.find? text = none)
    (ho : r.find? (text ++ [c]) = some o) : o.rest = o.word.text := by
  obtain ⟨htext, hat, _⟩ := find?_eq_some_iff.mp ho
  obtain ⟨hw, t, ht⟩ := mem_of_wordAt? hat
  rcases List.eq_nil_or_concat t with rfl | ⟨t', d, rfl⟩
  · rw [← ht, List.append_nil]
  · have hin : o.word.text <:+: text := by
      rw [← ht, List.concat_eq_append, ← List.append_assoc, ← List.append_assoc] at htext
      obtain ⟨htext, _⟩ := List.append_inj' htext rfl
      exact ⟨o.before, t', by rw [← htext, List.append_assoc]⟩
    exact absurd hin (find?_eq_none_iff.mp hnone _ hw)

/-- A growing text that becomes a word is itself the first word in it. -/
theorem find?_of_category? {c : Char} (hnone : r.find? text = none)
    (hk : r.category? (text ++ [c]) = some k) :
    r.find? (text ++ [c]) = some ⟨[], ⟨text ++ [c], k⟩, text ++ [c]⟩ := by
  obtain ⟨u, hu, hutext, _⟩ := exists_of_category? hk
  cases hword : r.wordAt? (text ++ [c]) with
  | none =>
    exact absurd (hutext ▸ List.prefix_rfl) (wordAt?_eq_none_iff.mp hword u hu)
  | some w =>
    have hfind : r.find? (text ++ [c]) = some ⟨[], w, text ++ [c]⟩ := by rw [find?, hword]
    have htext : text ++ [c] = w.text := rest_eq_word hnone hfind
    have hcategory := category?_of_wordAt? hword
    rw [← htext, hk, Option.some.injEq] at hcategory
    rw [hfind, hcategory, htext]

section Nonempty
variable (hne : ∀ w ∈ r.words, w.text ≠ [])
include hne

theorem category?_nil : r.category? [] = none :=
  category?_eq_none_iff.mpr hne

theorem find?_nil_eq_none : r.find? [] = none :=
  find?_eq_none_iff.mpr fun w hw hin => hne w hw (List.infix_nil.mp hin)

theorem find?_singleton {c : Char} (hc : r.category? [c] = none) : r.find? [c] = none := by
  refine find?_eq_none_iff.mpr fun w hw hin => ?_
  have hle := hin.length_le
  have hpos := List.length_pos_iff.mpr (hne w hw)
  exact category?_eq_none_iff.mp hc w hw (hin.eq_of_length (by simp at hle ⊢; omega))

end Nonempty

/-- No word stands behind a shorter one. -/
def Ordered (words : List Word) : Prop :=
  words.Pairwise fun v w => w.size ≤ v.size

/-- Of the words that a text begins with, the one that is found begins with all the others. -/
theorem prefix_of_wordAt? (hordered : Ordered r.words) (h : r.wordAt? text = some w)
    (hv : v ∈ r.words) (hpre : v.text <+: text) : v.text <+: w.text := by
  obtain ⟨_, hw⟩ := mem_of_wordAt? h
  rcases List.prefix_or_prefix_of_prefix hpre hw with hvw | ⟨t, ht⟩
  · exact hvw
  · obtain ⟨_, as, bs, hwords, has⟩ := List.find?_eq_some_iff_append.mp h
    have hsize : v.size ≤ w.size := by
      rw [hwords] at hv hordered
      rcases List.mem_append.mp hv with hv | hv
      · have hnot := has v hv
        rw [List.isPrefixOf_iff_prefix.mpr hpre] at hnot
        cases hnot
      · rcases List.mem_cons.mp hv with rfl | hv
        · exact Nat.le_refl _
        · exact List.rel_of_pairwise_cons (List.pairwise_append.mp hordered).2.1 hv
    have hnil : t = [] := by
      rw [Word.size, Word.size, ← ht, Utf8.size_append] at hsize
      exact Utf8.eq_nil_of_size_eq_zero (by omega)
    rw [hnil, List.append_nil] at ht
    exact ht ▸ List.prefix_rfl

theorem mem_place {words : List Word} (h : v ∈ place w words) : v = w ∨ v ∈ words := by
  induction words with
  | nil => exact Or.inl (List.mem_singleton.mp h)
  | cons u words ih =>
    unfold place at h
    split at h
    · rcases List.mem_cons.mp h with h | h
      · exact Or.inl h
      · exact Or.inr (List.mem_cons_of_mem u h)
    · split at h
      · exact List.mem_cons.mp h
      · rcases List.mem_cons.mp h with rfl | h
        · exact Or.inr List.mem_cons_self
        · exact (ih h).imp_right (List.mem_cons_of_mem u)

theorem ordered_place {words : List Word} (h : Ordered words) (w : Word) :
    Ordered (place w words) := by
  induction words with
  | nil => exact List.pairwise_singleton _ w
  | cons u words ih =>
    obtain ⟨hu, hwords⟩ := List.pairwise_cons.mp h
    unfold place
    split
    · rename_i htext
      refine List.pairwise_cons.mpr ⟨?_, hwords⟩
      intro v hv
      have hle := hu v hv
      rw [Word.size, Word.size, htext] at hle
      exact hle
    · split
      · rename_i hprecedes
        have hle : u.size ≤ w.size := by
          simp only [Word.precedes, Bool.or_eq_true, decide_eq_true_eq, Bool.and_eq_true,
            beq_iff_eq] at hprecedes
          omega
        refine List.pairwise_cons.mpr ⟨?_, h⟩
        intro v hv
        rcases List.mem_cons.mp hv with rfl | hv
        · exact hle
        · exact Nat.le_trans (hu v hv) hle
      · rename_i hprecedes
        have hle : w.size ≤ u.size := by
          simp only [Word.precedes, Bool.or_eq_true, decide_eq_true_eq, not_or] at hprecedes
          omega
        refine List.pairwise_cons.mpr ⟨?_, ih hwords⟩
        intro v hv
        rcases mem_place hv with rfl | hv
        · exact hle
        · exact hu v hv

section Building
variable {operators : OperatorTable} {fields : FieldTable}

theorem mem_insertAll {texts : List String} (h : w ∈ (r.insertAll texts k).words) :
    w ∈ r.words ∨ ∃ t ∈ texts, w = ⟨t.toList, k⟩ := by
  induction texts generalizing r with
  | nil => exact Or.inl h
  | cons t texts ih =>
    rcases ih (r := r.insert ⟨t.toList, k⟩) h with h | ⟨s, hs, rfl⟩
    · rcases mem_place h with rfl | h
      · exact Or.inr ⟨t, List.mem_cons_self, rfl⟩
      · exact Or.inl h
    · exact Or.inr ⟨s, List.mem_cons_of_mem t hs, rfl⟩

theorem ordered_insertAll (h : Ordered r.words) (texts : List String) (k : Category) :
    Ordered (r.insertAll texts k).words := by
  induction texts generalizing r with
  | nil => exact h
  | cons t texts ih => exact ih (r := r.insert ⟨t.toList, k⟩) (ordered_place h _)

theorem ordered_levels : Ordered levels.words :=
  List.pairwise_pair.mpr (Nat.le_refl 1)

theorem ordered_ofTables : Ordered (ofTables operators fields).words :=
  ordered_insertAll (ordered_insertAll ordered_levels _ _) _ _

theorem mem_ofTables (h : w ∈ (ofTables operators fields).words) :
    w ∈ levels.words ∨ (∃ b ∈ operators.bindings, w = ⟨b.token.toList, .operator⟩) ∨
      ∃ t ∈ fields.referenceTokens, w = ⟨t.toList, .reference⟩ := by
  rcases mem_insertAll h with h | h
  · rcases mem_insertAll h with h | ⟨t, ht, rfl⟩
    · exact Or.inl h
    · obtain ⟨b, hb, rfl⟩ := List.mem_map.mp ht
      exact Or.inr (Or.inl ⟨b, hb, rfl⟩)
  · exact Or.inr (Or.inr h)

theorem mem_levels_iff : w ∈ levels.words ↔ w = ⟨['('], .startLevel⟩ ∨ w = ⟨[')'], .endLevel⟩ := by
  rw [levels, List.mem_cons, List.mem_singleton]

theorem singleton_mem_levels_iff {c : Char} : ⟨[c], k⟩ ∈ levels.words ↔
    (c = '(' ∧ k = .startLevel) ∨ (c = ')' ∧ k = .endLevel) := by
  rw [mem_levels_iff, Word.mk.injEq, Word.mk.injEq, List.singleton_inj, List.singleton_inj]

theorem length_of_mem_levels (h : w ∈ levels.words) : w.text.length = 1 := by
  rcases mem_levels_iff.mp h with rfl | rfl
  · rfl
  · rfl

/-- Among the words of tables, only the parentheses are tokens at once. -/
theorem mem_levels_of_ofTables (h : w ∈ (ofTables operators fields).words)
    (hhold : w.category.isHoldable = false) : w ∈ levels.words := by
  rcases mem_ofTables h with h | ⟨b, _, rfl⟩ | ⟨t, _, rfl⟩
  · exact h
  · cases hhold
  · cases hhold

theorem category?_insertAll (r : Reserved) (texts : List String) (k : Category)
    (text : List Char) : (r.insertAll texts k).category? text =
      if String.ofList text ∈ texts then some k else r.category? text := by
  induction texts generalizing r with
  | nil => rfl
  | cons t texts ih =>
    have htail := ih (r.insert ⟨t.toList, k⟩)
    rw [category?_insert] at htail
    have heq : t.toList = text ↔ String.ofList text = t := by
      rw [← String.toList_inj, String.toList_ofList, eq_comm]
    simp only [List.mem_cons, ← heq]
    rw [show r.insertAll (t :: texts) k = (r.insert ⟨t.toList, k⟩).insertAll texts k from rfl,
      htail]
    by_cases hmem : String.ofList text ∈ texts
    · simp [hmem]
    · simp [hmem]

/-- A text that is a word for several reasons is a reference first and an operator next. -/
theorem category?_ofTables (text : List Char) : (ofTables operators fields).category? text =
    if String.ofList text ∈ fields.referenceTokens then some .reference
    else if String.ofList text ∈ operators.bindings.map (·.token) then some .operator
    else levels.category? text := by
  rw [ofTables, category?_insertAll, category?_insertAll]

def texts (operators : OperatorTable) (fields : FieldTable) : List (List Char) :=
  [['('], [')']] ++ operators.bindings.map (·.token.toList) ++
    fields.referenceTokens.map String.toList

theorem text_mem_texts (h : w ∈ (ofTables operators fields).words) :
    w.text ∈ texts operators fields := by
  rw [texts, List.mem_append, List.mem_append]
  rcases mem_ofTables h with h | ⟨b, hb, rfl⟩ | ⟨t, ht, rfl⟩
  · rcases mem_levels_iff.mp h with rfl | rfl
    · exact Or.inl (Or.inl List.mem_cons_self)
    · exact Or.inl (Or.inl (List.mem_cons_of_mem _ List.mem_cons_self))
  · exact Or.inl (Or.inr (List.mem_map_of_mem hb))
  · exact Or.inr (List.mem_map_of_mem ht)

theorem exists_word_of_mem_texts (h : text ∈ texts operators fields) :
    ∃ w ∈ (ofTables operators fields).words, w.text = text := by
  have hsome : ∃ k, (ofTables operators fields).category? text = some k := by
    rw [category?_ofTables]
    split
    · exact ⟨_, rfl⟩
    · rename_i hreference
      split
      · exact ⟨_, rfl⟩
      · rename_i hoperator
        rw [texts, List.mem_append, List.mem_append] at h
        rcases h with (h | h) | h
        · rcases List.mem_cons.mp h with rfl | h
          · exact ⟨_, rfl⟩
          · obtain rfl := List.mem_singleton.mp h
            exact ⟨_, rfl⟩
        · obtain ⟨b, hb, rfl⟩ := List.mem_map.mp h
          rw [String.ofList_toList] at hoperator
          exact absurd (List.mem_map_of_mem hb) hoperator
        · obtain ⟨t, ht, rfl⟩ := List.mem_map.mp h
          rw [String.ofList_toList] at hreference
          exact absurd ht hreference
  obtain ⟨k, hk⟩ := hsome
  obtain ⟨w, hw, hwtext, _⟩ := exists_of_category? hk
  exact ⟨w, hw, hwtext⟩

end Building
end Reserved

theorem Vocabulary.category?_reserved (v : Vocabulary) (text : List Char) :
    v.reserved.category? text =
      if String.ofList text ∈ v.fields.referenceTokens then some .reference
      else if String.ofList text ∈ v.operators.bindings.map (·.token) then some .operator
      else Reserved.levels.category? text := by
  rw [v.reserved_eq, Reserved.category?_ofTables]

end CertPolicy
