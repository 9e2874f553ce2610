import Mathlib.Data.List.Basic
import Mathlib.Data.List.Induction
import Mathlib.Data.List.TakeWhile
import CertPolicy.Text.Blank

/-!
# Texts up to blanks

Trimming takes away blanks only. What does not depend on blanks at the ends of a text is thus
the same before and behind it: the characters of the text that are no blanks, and the pieces
into which its blanks cut it.
-/

namespace CertPolicy
set_option autoImplicit false

/-- The text has characters, and neither the first nor the last of them is a blank. -/
structure Trimmed (text : List Char) : Prop where
  first : ∃ c ∈ text.head?, isBlank c = false
  last : ∃ c ∈ text.getLast?, isBlank c = false

namespace Trimmed
variable {text : List Char}

theorem ne_nil (h : Trimmed text) : text ≠ [] := by
  rintro rfl
  obtain ⟨c, hc, _⟩ := h.first
  cases hc

theorem of_blankless (hne : text ≠ []) (h : ∀ c ∈ text, isBlank c = false) : Trimmed text := by
  constructor
  · exact ⟨text.head hne, List.head?_eq_some_head hne, h _ (List.head_mem hne)⟩
  · exact ⟨text.getLast hne, List.getLast?_eq_some_getLast hne, h _ (List.getLast_mem hne)⟩

theorem trim_eq (h : Trimmed text) : trim text = text := by
  have hdrop (s : List Char) (hs : ∃ c ∈ s.head?, isBlank c = false) :
      s.dropWhile isBlank = s := by
    obtain ⟨c, hc, hblank⟩ := hs
    obtain ⟨s', rfl⟩ := List.head?_eq_some_iff.mp hc
    exact List.dropWhile_cons_of_neg (by simp [hblank])
  rw [trim, hdrop text h.first, hdrop _ (by simpa using h.last), List.reverse_reverse]

end Trimmed

theorem trim_eq_self {text : List Char} (h : ∀ c ∈ text, isBlank c = false) :
    trim text = text := by
  cases text with
  | nil => rfl
  | cons c s => exact (Trimmed.of_blankless (List.cons_ne_nil c s) h).trim_eq

theorem blankless_concat {text : List Char} {c : Char} (h : ∀ d ∈ text, isBlank d = false)
    (hc : isBlank c = false) : ∀ d ∈ text ++ [c], isBlank d = false := by
  intro d hd
  rcases List.mem_append.mp hd with hd | hd
  · exact h d hd
  · rw [List.mem_singleton.mp hd]
    exact hc

theorem trim_concat {c : Char} (hc : isBlank c = true) (text : List Char) :
    trim (text ++ [c]) = trim text := by
  rw [trim, trim, List.dropWhile_append]
  split
  · rename_i hnil
    rw [List.isEmpty_iff.mp hnil, List.dropWhile_cons_of_pos hc]
    rfl
  · rw [List.reverse_append, List.reverse_singleton, List.singleton_append,
      List.dropWhile_cons_of_pos hc]

theorem trim_append {s : List Char} (hs : ∀ c ∈ s, isBlank c = true) (t : List Char) :
    trim (s ++ t) = trim t := by
  rw [trim, trim, List.dropWhile_append_of_pos hs]

theorem prefix_trim (text : List Char) : trim text <+: text.dropWhile isBlank := by
  rw [trim, ← List.reverse_suffix, List.reverse_reverse]
  exact List.dropWhile_suffix isBlank

theorem isInfix_trim (text : List Char) : trim text <:+: text :=
  (prefix_trim text).isInfix.trans (List.dropWhile_suffix isBlank).isInfix

/-- Trimming leaves nothing, or a text that cannot be trimmed further. -/
theorem trimmed_trim {text : List Char} (hne : trim text ≠ []) : Trimmed (trim text) := by
  constructor
  · obtain ⟨s, hs⟩ : trim text <+: text.dropWhile isBlank := prefix_trim text
    have hdrop : text.dropWhile isBlank ≠ [] := by
      intro hnil
      rw [hnil, List.append_eq_nil_iff] at hs
      exact hne hs.1
    refine ⟨(text.dropWhile isBlank).head hdrop, ?_, List.head_dropWhile_not isBlank hdrop⟩
    rw [← List.head?_append_of_ne_nil _ hne, hs]
    exact List.head?_eq_some_head hdrop
  · have hdrop : (text.dropWhile isBlank).reverse.dropWhile isBlank ≠ [] := by
      intro hnil
      apply hne
      rw [trim, hnil, List.reverse_nil]
    refine ⟨_, ?_, List.head_dropWhile_not isBlank hdrop⟩
    rw [trim, List.getLast?_reverse]
    exact List.head?_eq_some_head hdrop

/-- What does not depend on a blank at either end of a text does not change by trimming. -/
theorem apply_trim {β : Type} {f : List Char → β}
    (hfirst : ∀ c s, isBlank c = true → f (c :: s) = f s)
    (hlast : ∀ c s, isBlank c = true → f (s ++ [c]) = f s) (text : List Char) :
    f (trim text) = f text := by
  have hleft (s : List Char) : f (s.dropWhile isBlank) = f s := by
    induction s with
    | nil => rfl
    | cons c s ih =>
      by_cases hc : isBlank c = true
      · rw [List.dropWhile_cons_of_pos hc, ih, hfirst c s hc]
      · rw [List.dropWhile_cons_of_neg hc]
  have hright (s : List Char) : f (s.reverse.dropWhile isBlank).reverse = f s := by
    induction s using List.reverseRecOn with
    | nil => rfl
    | append_singleton s c ih =>
      rw [List.reverse_append, List.reverse_singleton, List.singleton_append]
      by_cases hc : isBlank c = true
      · rw [List.dropWhile_cons_of_pos hc, ih, hlast c s hc]
      · rw [List.dropWhile_cons_of_neg hc, List.reverse_cons, List.reverse_reverse]
  rw [trim, hright, hleft]

def nonblanks (text : List Char) : List Char :=
  text.filter fun c => !isBlank c

@[simp] theorem nonblanks_append (s t : List Char) :
    nonblanks (s ++ t) = nonblanks s ++ nonblanks t :=
  List.filter_append s t

@[simp] theorem nonblanks_trim (text : List Char) : nonblanks (trim text) = nonblanks text := by
  apply apply_trim
  · intro c s hc
    exact List.filter_cons_of_neg (by simp [hc])
  · intro c s hc
    have hnil : nonblanks [c] = [] := List.filter_cons_of_neg (by simp [hc])
    rw [nonblanks_append, hnil, List.append_nil]

/-- The longest parts of a text that hold no blank, in order. -/
def pieces (text : List Char) : List (List Char) :=
  (text.splitOnP isBlank).filter fun piece => !piece.isEmpty

@[simp] theorem pieces_nil : pieces [] = [] := by
  rw [pieces, List.splitOnP_nil]
  rfl

theorem pieces_append_cons {c : Char} (hc : isBlank c = true) (s t : List Char) :
    pieces (s ++ c :: t) = pieces s ++ pieces t := by
  rw [pieces, List.splitOnP_append_cons s t hc, List.filter_append]
  rfl

theorem pieces_concat {c : Char} (hc : isBlank c = true) (text : List Char) :
    pieces (text ++ [c]) = pieces text := by
  rw [pieces_append_cons hc, pieces_nil, List.append_nil]

theorem pieces_of_blankless {text : List Char} (h : ∀ c ∈ text, isBlank c = false) :
    pieces text = if text.isEmpty then [] else [text] := by
  rw [pieces, List.splitOnP_eq_singleton h]
  cases text <;> rfl

@[simp] theorem pieces_trim (text : List Char) : pieces (trim text) = pieces text := by
  apply apply_trim
  · intro c s hc
    exact pieces_append_cons hc [] s
  · intro c s hc
    exact pieces_concat hc s

/-- The text is empty, or its last character is a blank. -/
def EndsInBlank (text : List Char) : Prop :=
  ∀ c ∈ text.getLast?, isBlank c = true

theorem endsInBlank_nil : EndsInBlank [] := by
  intro c hc
  cases hc

theorem endsInBlank_concat {c : Char} (hc : isBlank c = true) (text : List Char) :
    EndsInBlank (text ++ [c]) := by
  intro d hd
  rw [List.getLast?_concat] at hd
  obtain rfl := Option.some.inj hd
  exact hc

theorem pieces_append {s : List Char} (hs : EndsInBlank s) (t : List Char) :
    pieces (s ++ t) = pieces s ++ pieces t := by
  rcases List.eq_nil_or_concat s with rfl | ⟨s', c, rfl⟩
  · rfl
  · rw [List.concat_eq_append] at hs ⊢
    have hc : isBlank c = true := hs c (by simp)
    rw [List.append_assoc, List.singleton_append, pieces_append_cons hc, pieces_concat hc]

end CertPolicy
