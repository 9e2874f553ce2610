import CertPolicy.Proofs.Scanning

/-!
# Checking that a vocabulary can be scanned

Whether the reserved words of a vocabulary are stepwise is decided here from their texts, in
time that suits the kernel. The texts are split by their first characters again and again to
see how words grow (`graded`). A word can only come up inside another one at a character that
words begin with, so `inner` characters, which no word begins with, are passed over.
-/

namespace CertPolicy
set_option autoImplicit false

namespace Reserved

def tailAfter? (c : Char) : List Char → Option (List Char)
  | [] => none
  | d :: text => if d = c then some text else none

theorem tailAfter?_eq_some_iff {c : Char} {text rest : List Char} :
    tailAfter? c text = some rest ↔ text = c :: rest := by
  cases text with
  | nil => simp [tailAfter?]
  | cons d text =>
    rw [tailAfter?]
    split
    · rename_i h
      simp [h]
    · rename_i h
      simp [h]

/-- Whether texts of fewer than `size` characters grow into each other one character at a time. -/
def graded : Nat → List (List Char) → Bool
  | 0, texts => texts.isEmpty
  | size + 1, texts =>
    (!texts.contains [] || texts.all fun t => t.isEmpty || texts.contains (t.take 1)) &&
      (texts.filterMap List.head?).eraseDups.all fun c =>
        graded size (texts.filterMap (tailAfter? c))

theorem mem_of_graded {size : Nat} {texts : List (List Char)} {u : List Char} {c : Char}
    {s : List Char} (h : graded size texts = true) (hu : u ∈ texts) (hv : u ++ c :: s ∈ texts) :
    u ++ [c] ∈ texts := by
  induction size generalizing texts u with
  | zero =>
    rw [graded, List.isEmpty_iff] at h
    rw [h] at hu
    cases hu
  | succ size ih =>
    rw [graded, Bool.and_eq_true] at h
    obtain ⟨hhere, hbelow⟩ := h
    cases u with
    | nil =>
      have hcontains : texts.contains [] = true := List.contains_iff_mem.mpr hu
      rw [hcontains, Bool.not_true, Bool.false_or, List.all_eq_true] at hhere
      simpa using hhere _ hv
    | cons d u =>
      have hd : d ∈ (texts.filterMap List.head?).eraseDups := by
        rw [List.mem_eraseDups, List.mem_filterMap]
        exact ⟨d :: u, hu, rfl⟩
      have hgraded := List.all_eq_true.mp hbelow d hd
      have hmem (t : List Char) : t ∈ texts.filterMap (tailAfter? d) ↔ d :: t ∈ texts := by
        simp [List.mem_filterMap, tailAfter?_eq_some_iff]
      exact (hmem _).mp (ih hgraded ((hmem _).mpr hu) ((hmem _).mpr hv))

/-- Whether one of the texts stands in a text without ending it. -/
def standsInside (inner : Char → Bool) (texts : List (List Char)) : List Char → Bool
  | [] => false
  | c :: text =>
    (!inner c && texts.any fun t => t.isPrefixOf (c :: text) && t.length != text.length + 1) ||
      standsInside inner texts text

theorem standsInside_append {inner : Char → Bool} {texts : List (List Char)} {t s : List Char}
    (ht : t ∈ texts) (hinner : t.head?.any (!inner ·) = true) (hs : s ≠ []) (p : List Char) :
    standsInside inner texts (p ++ (t ++ s)) = true := by
  induction p with
  | nil =>
    cases t with
    | nil => cases hinner
    | cons c t =>
      have hlength := List.length_pos_iff.mpr hs
      have hpre : (c :: t).isPrefixOf (c :: (t ++ s)) = true :=
        List.isPrefixOf_iff_prefix.mpr (List.prefix_append (c :: t) s)
      have hany : (texts.any fun u => u.isPrefixOf (c :: (t ++ s)) &&
          u.length != (t ++ s).length + 1) = true := by
        refine List.any_eq_true.mpr ⟨c :: t, ht, ?_⟩
        rw [hpre, Bool.true_and, bne_iff_ne, List.length_cons, List.length_append]
        omega
      have hc : (!inner c) = true := hinner
      rw [List.nil_append, List.cons_append, standsInside, hany, hc]
      rfl
  | cons c p ih =>
    rw [List.cons_append, standsInside, ih, Bool.or_true]

/-- Whether texts of fewer than `size` characters are scanned stepwise if they are reserved. -/
def checkStepwise (inner : Char → Bool) (size : Nat) (texts : List (List Char)) : Bool :=
  (texts.all fun t => t.head?.any (!inner ·)) && graded size texts &&
    (texts.all fun t => !standsInside inner texts t.tail) &&
    texts.all fun t => (t.head? != some '(' && t.head? != some ')') || t.length == 1

theorem stepwise_of_check {operators : OperatorTable} {fields : FieldTable}
    {inner : Char → Bool} {size : Nat}
    (h : checkStepwise inner size (texts operators fields) = true) :
    (ofTables operators fields).Stepwise := by
  simp only [checkStepwise, Bool.and_eq_true, List.all_eq_true] at h
  obtain ⟨⟨⟨hhead, hgraded⟩, hinside⟩, hlevel⟩ := h
  refine ⟨?_, ordered_ofTables, ?_, ?_, ?_⟩
  · intro w hw hnil
    have hany := hhead _ (text_mem_texts hw)
    rw [hnil] at hany
    cases hany
  · intro u hu v hv c s hvu
    have hmem := text_mem_texts hv
    rw [hvu] at hmem
    exact exists_word_of_mem_texts (mem_of_graded hgraded (text_mem_texts hu) hmem)
  · intro u hu v hv p s hvu
    cases p with
    | nil => exact Or.inl rfl
    | cons c p =>
      refine Or.inr ?_
      by_contra hs
      have hnot := hinside _ (text_mem_texts hv)
      have hu' := text_mem_texts hu
      rw [hvu, List.cons_append, List.tail_cons, standsInside_append hu' (hhead _ hu') hs p] at hnot
      cases hnot
  · intro u hu hhold v hv hvu
    obtain ⟨c, hc, hlevelChar⟩ : ∃ c, u.text = [c] ∧ (c = '(' ∨ c = ')') := by
      rcases mem_levels_iff.mp (mem_levels_of_ofTables hu hhold) with rfl | rfl
      · exact ⟨_, rfl, Or.inl rfl⟩
      · exact ⟨_, rfl, Or.inr rfl⟩
    have hv' := text_mem_texts hv
    have hany := hhead _ hv'
    have halone := hlevel _ hv'
    rw [hc] at hvu ⊢
    cases hvtext : v.text with
    | nil =>
      rw [hvtext] at hany
      cases hany
    | cons d t =>
      rw [hvtext] at hvu halone
      rcases hvu with hvu | hvu
      · obtain ⟨rfl, _⟩ := List.cons_prefix_cons.mp hvu
        rcases hlevelChar with rfl | rfl
        · simpa using halone
        · simpa using halone
      · obtain ⟨rfl, hnil⟩ := List.cons_prefix_cons.mp hvu
        rw [List.prefix_nil.mp hnil]

end Reserved
end CertPolicy
