import CertPolicy.Proofs.Reserved
import CertPolicy.Token.Scan

/-!
# Longest match

A scanner settles on words while it reads, and looks one character ahead at most. Tokens by
longest match are defined here by searching the text that is left, `Reserved.longest`. If the
reserved words are `Stepwise`, which those of the standard vocabulary are, a scanner differs
from that in one respect: behind a word that it held for one more character, this character is
a token at once if it is a word by itself. `Reserved.eager` is longest match with that rule.
-/

namespace CertPolicy
set_option autoImplicit false

/-- The literal that a text is, unless it is empty. -/
def literalOf (text : List Char) : List Token :=
  if text.isEmpty then [] else [.ofChars text .literal]

theorem Token.ofChars_eq_iff {s t : List Char} {k l : Category} :
    Token.ofChars s k = .ofChars t l ↔ s = t ∧ k = l := by
  rw [ofChars, ofChars, Token.mk.injEq, String.ofList_inj]

namespace Reserved
variable {r : Reserved} {text : List Char} {o : Occurrence} {w : Word} {k : Category}

theorem length_drop_lt (h : r.find? text = some o) (hw : o.word.text ≠ []) :
    (o.rest.drop o.word.text.length).length < text.length := by
  obtain ⟨htext, hat, _⟩ := find?_eq_some_iff.mp h
  have hle := (mem_of_wordAt? hat).2.length_le
  have hpos := List.length_pos_iff.mpr hw
  rw [← htext, List.length_append, List.length_drop]
  omega

/-- The tokens of a text by longest match: what stands in front of the earliest word is a
literal, the longest word there is a token, and so on behind it. An empty word ends this. -/
def longest (r : Reserved) (text : List Char) : List Token :=
  match _ : r.find? text with
  | none => literalOf text
  | some o =>
    if _ : o.word.text = [] then literalOf text
    else literalOf o.before ++ .ofChars o.word.text o.word.category ::
      longest r (o.rest.drop o.word.text.length)
termination_by text.length
decreasing_by exact length_drop_lt ‹_› ‹_›

/-- The category of the first character by itself, if a held word has just ended. -/
def alone? (r : Reserved) (held : Bool) : List Char → Option Category
  | [] => none
  | c :: _ => if held then r.category? [c] else none

/-- The tokens of a text by longest match, except that a character behind a held word that is
a word by itself is a token even if it begins a longer word. -/
def eager (r : Reserved) (held : Bool) (text : List Char) : List Token :=
  match _ : r.alone? held text with
  | some k => .ofChars (text.take 1) k :: eager r false (text.drop 1)
  | none =>
    match _ : r.find? text with
    | none => literalOf text
    | some o =>
      if _ : o.word.text = [] then literalOf text
      else literalOf o.before ++ .ofChars o.word.text o.word.category ::
        eager r o.word.category.isHoldable (o.rest.drop o.word.text.length)
termination_by text.length
decreasing_by
  · rename_i halone
    cases text with
    | nil => cases halone
    | cons c rest => exact Nat.lt_succ_self _
  · exact length_drop_lt ‹_› ‹_›

@[simp] theorem alone?_false (r : Reserved) (text : List Char) : r.alone? false text = none := by
  cases text <;> rfl

theorem eager_of_alone? {held : Bool} {c : Char} (h : r.alone? held (c :: text) = some k) :
    r.eager held (c :: text) = .ofChars [c] k :: r.eager false text := by
  rw [eager]
  split
  · rename_i k' hk'
    rw [h, Option.some.injEq] at hk'
    rw [hk']
    rfl
  · rename_i hnone
    rw [h] at hnone
    cases hnone

theorem eager_of_find?_none {held : Bool} (halone : r.alone? held text = none)
    (h : r.find? text = none) : r.eager held text = literalOf text := by
  rw [eager]
  split
  · simp_all
  · split
    · rfl
    · simp_all

theorem eager_of_find? {held : Bool} (halone : r.alone? held text = none)
    (h : r.find? text = some o) (hw : o.word.text ≠ []) :
    r.eager held text = literalOf o.before ++ .ofChars o.word.text o.word.category ::
      r.eager o.word.category.isHoldable (o.rest.drop o.word.text.length) := by
  rw [eager]
  split
  · simp_all
  · split
    · simp_all
    · rename_i o' ho'
      rw [h, Option.some.injEq] at ho'
      subst ho'
      rw [dif_neg hw]

theorem longest_of_find?_none (h : r.find? text = none) : r.longest text = literalOf text := by
  rw [longest]
  split
  · rfl
  · simp_all

theorem longest_of_find? (h : r.find? text = some o) (hw : o.word.text ≠ []) :
    r.longest text = literalOf o.before ++ .ofChars o.word.text o.word.category ::
      r.longest (o.rest.drop o.word.text.length) := by
  rw [longest]
  split
  · simp_all
  · rename_i o' ho'
    rw [h, Option.some.injEq] at ho'
    subst ho'
    rw [dif_neg hw]

theorem eager_false_of_wordAt? (h : r.wordAt? text = some w) (hw : w.text ≠ []) :
    r.eager false text = .ofChars w.text w.category ::
      r.eager w.category.isHoldable (text.drop w.text.length) := by
  have hfind : r.find? text = some ⟨[], w, text⟩ := by rw [find?, h]
  rw [eager_of_find? (alone?_false r text) hfind hw]
  rfl

theorem alone?_cons_eq_some_iff {held : Bool} {c : Char} {rest : List Char} :
    r.alone? held (c :: rest) = some k ↔ held = true ∧ r.category? [c] = some k := by
  cases held <;> simp [alone?]

theorem alone?_append {held : Bool} {s : List Char} (hs : s ≠ []) (t : List Char) :
    r.alone? held (s ++ t) = r.alone? held s := by
  obtain ⟨c, s, rfl⟩ := List.exists_cons_of_ne_nil hs
  rfl

theorem exists_wordAt?_of_alone? {held : Bool} {c : Char} {rest : List Char}
    (h : r.alone? held (c :: rest) = some k) : ∃ w, r.wordAt? (c :: rest) = some w := by
  obtain ⟨u, hu, htext, _⟩ := exists_of_category? (alone?_cons_eq_some_iff.mp h).2
  cases hword : r.wordAt? (c :: rest) with
  | some w => exact ⟨w, rfl⟩
  | none => exact absurd (htext ▸ ⟨rest, rfl⟩) (wordAt?_eq_none_iff.mp hword u hu)

/-- Whether the tokens are also those that a held word's end leaves: a token that begins with a
word of one character, behind a held word, is that word. -/
def Unbroken (r : Reserved) : Bool → List Token → Prop
  | _, [] => True
  | held, t :: ts =>
    if (r.alone? held t.text.toList).isSome then t.text.length = 1 ∧ Unbroken r false ts
    else Unbroken r t.category.isHoldable ts

theorem unbroken_cons_of_alone? {held : Bool} {text : List Char} {ts : List Token}
    (halone : (r.alone? held text).isSome) :
    r.Unbroken held (.ofChars text k :: ts) ↔ text.length = 1 ∧ r.Unbroken false ts := by
  rw [Unbroken, Token.ofChars]
  simp [halone]

theorem unbroken_cons_of_alone?_none {held : Bool} {text : List Char} {ts : List Token}
    (halone : r.alone? held text = none) :
    r.Unbroken held (.ofChars text k :: ts) ↔ r.Unbroken k.isHoldable ts := by
  rw [Unbroken, Token.ofChars]
  simp [halone]

theorem unbroken_literalOf {held : Bool} {text : List Char} (halone : r.alone? held text = none) :
    r.Unbroken held (literalOf text) := by
  cases text with
  | nil => trivial
  | cons c rest => exact (unbroken_cons_of_alone?_none halone).mpr trivial

/-- A literal and the word behind it do not matter if the literal, or without one the word, does
not begin with a word of one character. -/
theorem unbroken_append_iff {held : Bool} {before : List Char} {ts : List Token}
    (halone : r.alone? held (before ++ w.text) = none) :
    r.Unbroken held (literalOf before ++ .ofChars w.text w.category :: ts) ↔
      r.Unbroken w.category.isHoldable ts := by
  cases before with
  | nil => exact unbroken_cons_of_alone?_none halone
  | cons c before =>
    have hliteral : r.alone? held (c :: before) = none := halone
    refine (unbroken_cons_of_alone?_none hliteral).trans ?_
    exact unbroken_cons_of_alone?_none (alone?_false r w.text)

/-- Where no held word is followed by a longer word that begins with a word of one character,
and only there, tokens by longest match are what the scanner's rule gives. -/
theorem eager_eq_longest_iff (hne : ∀ w ∈ r.words, w.text ≠ []) (held : Bool) (text : List Char) :
    r.eager held text = r.longest text ↔ r.Unbroken held (r.longest text) := by
  induction held, text using eager.induct r with
  | case1 held text k halone ih =>
    cases text with
    | nil => cases halone
    | cons c rest =>
      obtain ⟨w, hword⟩ := exists_wordAt?_of_alone? halone
      obtain ⟨hmem, hpre⟩ := mem_of_wordAt? hword
      have hfind : r.find? (c :: rest) = some ⟨[], w, c :: rest⟩ := by rw [find?, hword]
      have halone' : r.alone? held w.text = some k := by
        obtain ⟨t, ht⟩ := hpre
        rw [← alone?_append (hne w hmem) t, ht]
        exact halone
      rw [eager_of_alone? halone, longest_of_find? hfind (hne w hmem)]
      rw [show literalOf [] = [] from rfl, List.nil_append,
        unbroken_cons_of_alone? (Option.isSome_of_eq_some halone'),
        List.cons.injEq]
      obtain ⟨word, category⟩ := w
      cases word with
      | nil => exact absurd rfl (hne _ hmem)
      | cons d s =>
        obtain ⟨rfl, _⟩ := List.cons_prefix_cons.mp hpre
        cases s with
        | nil =>
          have hcategory := category?_of_wordAt? hword
          rw [(alone?_cons_eq_some_iff.mp halone).2, Option.some.injEq] at hcategory
          refine and_congr (iff_of_true ?_ rfl) ih
          rw [hcategory]
        | cons d' s =>
          rw [Token.ofChars_eq_iff]
          simp
  | case2 held text halone hfind =>
    rw [eager_of_find?_none halone hfind, longest_of_find?_none hfind]
    exact iff_of_true rfl (unbroken_literalOf halone)
  | case3 held text halone o hfind hw =>
    exact absurd hw (hne _ (mem_of_wordAt? (find?_eq_some_iff.mp hfind).2.1).1)
  | case4 held text halone o hfind hw ih =>
    obtain ⟨htext, hat, _⟩ := find?_eq_some_iff.mp hfind
    obtain ⟨t, ht⟩ := (mem_of_wordAt? hat).2
    have halone' : r.alone? held (o.before ++ o.word.text) = none := by
      rw [← alone?_append (by simp [hw]) t, List.append_assoc, ht, htext]
      exact halone
    rw [eager_of_find? halone hfind hw, longest_of_find? hfind hw, unbroken_append_iff halone',
      List.append_cancel_left_eq, List.cons.injEq, ← ih]
    exact and_iff_right rfl

end Reserved
end CertPolicy
