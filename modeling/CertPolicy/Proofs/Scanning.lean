import CertPolicy.Proofs.Blanks
import CertPolicy.Proofs.LongestMatch

/-!
# Settling on words one character at a time

A scanner that collects characters can only find the longest word if words grow into longer
words through words, and if no word comes to an end inside another one that goes on. Under these
conditions (`Reserved.Stepwise`) reading a character leaves the tokens of `Reserved.eager` as
they are: those completed, and those of what is collected and of what is left.
-/

namespace CertPolicy
set_option autoImplicit false

theorem Token.literals_eq_literalOf {text : List Char} (h : ∀ c ∈ text, isBlank c = false) :
    Token.literals text = literalOf text := by
  rw [literals, literalOf, trim_eq_self h]

namespace Reserved
variable {r : Reserved} {text : List Char} {o : Occurrence} {w : Word} {k : Category}

/-- A scanner need not look further ahead than one character. -/
structure Stepwise (r : Reserved) : Prop where
  nonempty : ∀ w ∈ r.words, w.text ≠ []
  ordered : Ordered r.words
  /-- A word that begins another one and the character that follows it there are a word. -/
  gradual : ∀ u ∈ r.words, ∀ v ∈ r.words, ∀ c s, v.text = u.text ++ c :: s →
    ∃ w ∈ r.words, w.text = u.text ++ [c]
  /-- A word stands in another one at its beginning or at its end. -/
  apart : ∀ u ∈ r.words, ∀ v ∈ r.words, ∀ p s, v.text = p ++ (u.text ++ s) → p = [] ∨ s = []
  /-- A word that is a token at once begins no other word and is begun by none. -/
  single : ∀ u ∈ r.words, u.category.isHoldable = false → ∀ v ∈ r.words,
    u.text <+: v.text ∨ v.text <+: u.text → v.text = u.text

namespace Stepwise

/-- A word is found in front of a text that does not extend it. -/
theorem wordAt?_append (h : r.Stepwise) {word : List Char} (hk : r.category? word = some k)
    (htext : ∀ c s, text = c :: s → r.category? (word ++ [c]) = none) :
    r.wordAt? (word ++ text) = some ⟨word, k⟩ := by
  obtain ⟨u, hu, rfl, _⟩ := exists_of_category? hk
  have hpre : u.text <+: u.text ++ text := List.prefix_append u.text text
  cases hword : r.wordAt? (u.text ++ text) with
  | none => exact absurd hpre (wordAt?_eq_none_iff.mp hword u hu)
  | some v =>
    obtain ⟨hv, hvpre⟩ := mem_of_wordAt? hword
    obtain ⟨s, hs⟩ := prefix_of_wordAt? h.ordered hword hu hpre
    cases s with
    | nil =>
      rw [List.append_nil] at hs
      have hcategory := category?_of_wordAt? hword
      rw [← hs, hk, Option.some.injEq] at hcategory
      rw [hcategory, hs]
    | cons c s =>
      rw [← hs, List.prefix_append_right_inj] at hvpre
      obtain ⟨t, rfl⟩ := hvpre
      obtain ⟨w, hw, hwtext⟩ := h.gradual u hu v hv c s hs.symm
      exact absurd hwtext (category?_eq_none_iff.mp (htext c (s ++ t) rfl) w hw)

theorem category?_append_singleton (h : r.Stepwise) {word : List Char}
    (hk : r.category? word = some k) (hhold : k.isHoldable = false) (c : Char) :
    r.category? (word ++ [c]) = none := by
  obtain ⟨u, hu, rfl, rfl⟩ := exists_of_category? hk
  rw [category?_eq_none_iff]
  intro v hv hvtext
  have hpre : u.text <+: v.text := ⟨[c], hvtext.symm⟩
  have heq := h.single u hu hhold v hv (Or.inl hpre)
  rw [hvtext] at heq
  simp at heq

/-- A character that makes a word of a held one does not make it a token at once. -/
theorem isHoldable_of_append (h : r.Stepwise) {word : List Char} {c : Char} {k' : Category}
    (hk : r.category? word = some k) (hk' : r.category? (word ++ [c]) = some k') :
    k'.isHoldable = true := by
  obtain ⟨u, hu, rfl, _⟩ := exists_of_category? hk
  obtain ⟨v, hv, hvtext, rfl⟩ := exists_of_category? hk'
  by_contra hhold
  rw [Bool.not_eq_true] at hhold
  have hpre : u.text <+: v.text := ⟨[c], hvtext.symm⟩
  have heq := h.single v hv hhold u hu (Or.inr hpre)
  rw [hvtext] at heq
  simp at heq

/-- What stands in front of such a word stays a literal when the text goes on. -/
theorem find?_append (h : r.Stepwise) (hnone : r.find? text = none) {c : Char}
    (ho : r.find? (text ++ [c]) = some o) {rest : List Char}
    (hw : r.wordAt? (o.rest ++ rest) = some w) :
    r.find? (o.before ++ (o.rest ++ rest)) = some ⟨o.before, w, o.rest ++ rest⟩ := by
  obtain ⟨_, hat, hbefore⟩ := find?_eq_some_iff.mp ho
  obtain ⟨hword, _⟩ := mem_of_wordAt? hat
  refine find?_eq_some_iff.mpr ⟨rfl, hw, ?_⟩
  intro p hp hne
  rw [wordAt?_eq_none_iff]
  intro v hv hpre
  have hnot := wordAt?_eq_none_iff.mp (hbefore p hp hne) v hv
  have hlonger : p ++ o.rest <+: v.text := by
    have hends : p ++ o.rest <+: p ++ (o.rest ++ rest) := by
      rw [← List.append_assoc]
      exact List.prefix_append _ _
    exact (List.prefix_or_prefix_of_prefix hpre hends).resolve_left hnot
  obtain ⟨s, hs⟩ := hlonger
  rw [rest_eq_word hnone ho, List.append_assoc] at hs
  rcases h.apart _ hword v hv p s hs.symm with rfl | rfl
  · exact hne rfl
  · refine hnot ⟨[], ?_⟩
    rw [rest_eq_word hnone ho, ← hs]
    simp

theorem eager_append (h : r.Stepwise) (hnone : r.find? text = none) {c : Char}
    (ho : r.find? (text ++ [c]) = some o) (rest : List Char) :
    r.eager false (o.before ++ (o.rest ++ rest)) =
      literalOf o.before ++ r.eager false (o.rest ++ rest) := by
  obtain ⟨hmem, hpre⟩ := mem_of_wordAt? (find?_eq_some_iff.mp ho).2.1
  cases hw : r.wordAt? (o.rest ++ rest) with
  | none =>
    exact absurd (hpre.trans (List.prefix_append _ rest))
      (wordAt?_eq_none_iff.mp hw o.word hmem)
  | some w =>
    have hne := h.nonempty w (mem_of_wordAt? hw).1
    have hfind := h.find?_append hnone ho hw
    rw [eager_of_find? (alone?_false r _) hfind hne, eager_false_of_wordAt? hw hne]

theorem eager_congr (h : r.Stepwise) {held held' : Bool}
    (halone : r.alone? held text = none) (halone' : r.alone? held' text = none) :
    r.eager held text = r.eager held' text := by
  cases hfind : r.find? text with
  | none => rw [eager_of_find?_none halone hfind, eager_of_find?_none halone' hfind]
  | some o =>
    have hne := h.nonempty o.word (mem_of_wordAt? (find?_eq_some_iff.mp hfind).2.1).1
    rw [eager_of_find? halone hfind hne, eager_of_find? halone' hfind hne]

theorem eager_word_append (h : r.Stepwise) {word : List Char} (hk : r.category? word = some k)
    (htext : ∀ c s, text = c :: s → r.category? (word ++ [c]) = none) :
    r.eager false (word ++ text) = .ofChars word k :: r.eager k.isHoldable text := by
  have hword := h.wordAt?_append hk htext
  have hne := h.nonempty _ (mem_of_wordAt? hword).1
  rw [eager_false_of_wordAt? hword hne, List.drop_left]

theorem longest_word_append (h : r.Stepwise) {word : List Char} (hk : r.category? word = some k)
    (htext : ∀ c s, text = c :: s → r.category? (word ++ [c]) = none) :
    r.longest (word ++ text) = .ofChars word k :: r.longest text := by
  have hword := h.wordAt?_append hk htext
  have hne := h.nonempty _ (mem_of_wordAt? hword).1
  have hfind : r.find? (word ++ text) = some ⟨[], ⟨word, k⟩, word ++ text⟩ := by rw [find?, hword]
  rw [longest_of_find? hfind hne, List.drop_left]
  rfl

end Stepwise
end Reserved

namespace Scanner
variable {r : Reserved} {s : Scanner} {c : Char} {k : Category}

/-- The buffer is the word that is held, or no word has come up in it. -/
structure Ready (r : Reserved) (s : Scanner) : Prop where
  blankless : ∀ d ∈ s.buffer, isBlank d = false
  searched : s.held = none → r.find? s.buffer = none
  settled : ∀ k, s.held = some k → r.category? s.buffer = some k ∧ k.isHoldable = true

/-- The tokens completed in a buffer, and the scanner behind them, stand for the buffer. -/
def Faithful (r : Reserved) (buffer : List Char) (read : List Token × Scanner) : Prop :=
  read.2.Ready r ∧ ∀ text,
    r.eager false (buffer ++ text) = read.1 ++ r.eager false (read.2.buffer ++ text)

theorem ready_start (h : r.Stepwise) : start.Ready r :=
  ⟨fun _ hd => absurd hd List.not_mem_nil, fun _ => Reserved.find?_nil_eq_none h.nonempty,
    fun _ hk => nomatch hk⟩

theorem faithful_self (hs : s.Ready r) : Faithful r s.buffer ([], s) :=
  ⟨hs, fun _ => rfl⟩

theorem faithful_word (h : r.Stepwise) {word : List Char} (hk : r.category? word = some k)
    (hhold : k.isHoldable = false) : Faithful r word ([.ofChars word k], start) := by
  refine ⟨ready_start h, fun text => ?_⟩
  rw [h.eager_word_append hk fun c _ _ => h.category?_append_singleton hk hhold c, hhold]
  rfl

theorem faithful_settle (h : r.Stepwise) {word : List Char} (hk : r.category? word = some k)
    (hhold : k.isHoldable = true) (hc : isBlank c = false)
    (hnone : r.category? (word ++ [c]) = none) :
    Faithful r (word ++ [c]) (settle r word k c) := by
  have hword (text : List Char) : r.eager false (word ++ [c] ++ text) =
      .ofChars word k :: r.eager true (c :: text) := by
    rw [List.append_assoc, List.singleton_append, h.eager_word_append hk ?_, hhold]
    intro d t hd
    obtain ⟨rfl, _⟩ := List.cons.inj hd
    exact hnone
  cases hnext : r.category? [c] with
  | some next =>
    rw [settle, hnext]
    refine ⟨ready_start h, fun text => ?_⟩
    rw [hword, Reserved.eager_of_alone? (Reserved.alone?_cons_eq_some_iff.mpr ⟨rfl, hnext⟩)]
    rfl
  | none =>
    rw [settle, hnext]
    have hfind := Reserved.find?_singleton h.nonempty hnext
    have hblank : ∀ d ∈ [] ++ [c], isBlank d = false := blankless_concat nofun hc
    refine ⟨⟨hblank, fun _ => hfind, fun _ hk => nomatch hk⟩, fun text => ?_⟩
    have halone : r.alone? true (c :: text) = none := hnext
    rw [hword, h.eager_congr halone (Reserved.alone?_false r _)]
    rfl

theorem faithful_cut (h : r.Stepwise) {buffer : List Char} (hfind : r.find? buffer = none)
    (hblank : ∀ d ∈ buffer ++ [c], isBlank d = false) :
    Faithful r (buffer ++ [c]) (cut r (buffer ++ [c])) := by
  cases ho : r.find? (buffer ++ [c]) with
  | none =>
    rw [cut, ho]
    exact faithful_self ⟨hblank, fun _ => ho, fun _ hk => nomatch hk⟩
  | some o =>
    obtain ⟨htext, hat, _⟩ := Reserved.find?_eq_some_iff.mp ho
    rw [← htext] at hblank
    have hword := Reserved.category?_of_wordAt? hat
    have hrest := Reserved.rest_eq_word hfind ho
    rw [← hrest] at hword
    have hliteral : Token.literals o.before = literalOf o.before :=
      Token.literals_eq_literalOf fun d hd => hblank d (List.mem_append_left _ hd)
    have hblank' : ∀ d ∈ o.rest, isBlank d = false :=
      fun d hd => hblank d (List.mem_append_right _ hd)
    -- It is enough to know what stands for the word itself.
    have hbefore {read : List Token × Scanner} (hread : Faithful r o.rest read) :
        Faithful r (buffer ++ [c]) (literalOf o.before ++ read.1, read.2) := by
      refine ⟨hread.1, fun text => ?_⟩
      rw [← htext, List.append_assoc, h.eager_append hfind ho, hread.2, List.append_assoc]
    simp only [cut, ho, trim_eq_self hblank', hword, Option.getD_some, hliteral]
    split
    · rename_i hhold
      have hready : Ready r ⟨o.rest, some o.word.category⟩ := by
        refine ⟨hblank', fun hnone => (nomatch hnone), ?_⟩
        intro k hk
        obtain rfl := Option.some.inj hk
        exact ⟨hword, hhold⟩
      simpa using hbefore (faithful_self hready)
    · rename_i hhold
      exact hbefore (faithful_word h hword (by simpa using hhold))

theorem faithful_step (h : r.Stepwise) (splitLiterals : Bool) (hs : s.Ready r)
    (hc : isBlank c = false) : Faithful r (s.buffer ++ [c]) (s.step r splitLiterals c) := by
  have hblank : ∀ d ∈ s.buffer ++ [c], isBlank d = false := blankless_concat hs.blankless hc
  obtain ⟨buffer, held⟩ := s
  cases hcategory : r.category? (buffer ++ [c]) with
  | some k =>
    simp only [step, hcategory]
    split
    · rename_i hhold
      refine faithful_self ⟨hblank, fun hnone => (nomatch hnone), ?_⟩
      intro k' hk'
      obtain rfl := Option.some.inj hk'
      exact ⟨hcategory, hhold⟩
    · rename_i hhold
      cases held with
      | none => exact faithful_word h hcategory (by simpa using hhold)
      | some k' => exact absurd (h.isHoldable_of_append (hs.settled k' rfl).1 hcategory) hhold
  | none =>
    simp only [step, hcategory, hc, Bool.and_false, Bool.false_and]
    cases held with
    | none => exact faithful_cut h (hs.searched rfl) hblank
    | some k =>
      obtain ⟨hk, hhold⟩ := hs.settled k rfl
      exact faithful_settle h hk hhold hc hcategory

theorem finish_eq_eager (h : r.Stepwise) (hs : s.Ready r) :
    s.finish r = r.eager false s.buffer := by
  rw [finish, trim_eq_self hs.blankless]
  obtain ⟨buffer, held⟩ := s
  cases held with
  | none =>
    have hfind := hs.searched rfl
    have hcategory := Reserved.category?_eq_none_of_find? hfind
    rw [Reserved.eager_of_find?_none (Reserved.alone?_false r buffer) hfind, hcategory]
    rfl
  | some k =>
    obtain ⟨hk, _⟩ := hs.settled k rfl
    have hword := h.eager_word_append hk (show ∀ c s, [] = c :: s → _ from fun _ _ => nofun)
    have hnil := Reserved.find?_nil_eq_none h.nonempty
    rw [List.append_nil, Reserved.eager_of_find?_none rfl hnil] at hword
    cases buffer with
    | nil =>
      rw [Reserved.category?_nil h.nonempty] at hk
      cases hk
    | cons c buffer =>
      rw [hword, hk]
      rfl

theorem run_eq_eager (h : r.Stepwise) (splitLiterals : Bool) {text : List Char}
    (hs : s.Ready r) (hblank : ∀ d ∈ text, isBlank d = false) :
    s.run r splitLiterals text = r.eager false (s.buffer ++ text) := by
  induction text generalizing s with
  | nil =>
    rw [List.append_nil]
    exact finish_eq_eager h hs
  | cons c rest ih =>
    obtain ⟨hready, heager⟩ :=
      faithful_step h splitLiterals hs (hblank c List.mem_cons_self)
    have hrest := ih hready fun d hd => hblank d (List.mem_cons_of_mem c hd)
    have hcons := heager rest
    rw [List.append_assoc, List.singleton_append] at hcons
    rw [hcons, ← hrest]
    rfl

end Scanner

theorem Token.scan_eq_eager {r : Reserved} (h : r.Stepwise) (splitLiterals : Bool) {text : String}
    (hblank : ∀ c ∈ text.toList, isBlank c = false) (hnul : '\x00' ∉ text.toList) :
    Token.scan r splitLiterals text = r.eager false text.toList := by
  rw [scan, beforeNul_eq_self hnul]
  exact Scanner.run_eq_eager h splitLiterals (Scanner.ready_start h) hblank

end CertPolicy
