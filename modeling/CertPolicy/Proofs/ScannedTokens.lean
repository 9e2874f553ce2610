import Mathlib.Data.List.Chain
import CertPolicy.Proofs.SolidWords
import CertPolicy.Proofs.StandardScan

/-!
# The tokens that scanning yields

A scanner yields words that it has collected one character at a time, and literals, which hold
no word. From this follows what is true of every token: its text is trimmed, its category is the
one its text is looked up with, and there is no word in a literal. If blanks do not end literals,
only a word does, so that two literals never stand side by side.
-/

namespace CertPolicy
set_option autoImplicit false

namespace Reserved
variable {r : Reserved} {text : List Char} {c : Char} {k : Category} {o : Occurrence}

/-- A scanner that begins in front of the text has just the text in its buffer behind it, and
knows it as a word: the first beginning of the text that has a word in it is a word, and so is
each longer one. -/
inductive Collects (r : Reserved) : List Char → Category → Prop
  | first {text : List Char} {c : Char} {k : Category} (hnone : r.find? text = none)
      (hk : r.category? (text ++ [c]) = some k) : Collects r (text ++ [c]) k
  | longer {text : List Char} {c : Char} {k k' : Category} (h : Collects r text k)
      (hhold : k.isHoldable = true) (hk : r.category? (text ++ [c]) = some k') :
      Collects r (text ++ [c]) k'

theorem Collects.category?_eq (h : r.Collects text k) : r.category? text = some k := by
  cases h with
  | first _ hk => exact hk
  | longer _ _ hk => exact hk

/-- The last character of the first word that comes up is the one that was read. -/
theorem exists_word_concat (hne : ∀ w ∈ r.words, w.text ≠ []) (hnone : r.find? text = none)
    (ho : r.find? (text ++ [c]) = some o) :
    ∃ p, o.word.text = p ++ [c] ∧ o.before ++ p = text := by
  obtain ⟨htext, hat, _⟩ := find?_eq_some_iff.mp ho
  rw [rest_eq_word hnone ho] at htext
  rcases List.eq_nil_or_concat o.word.text with hnil | ⟨p, d, hp⟩
  · exact absurd hnil (hne o.word (mem_of_wordAt? hat).1)
  · rw [List.concat_eq_append] at hp
    rw [hp, ← List.append_assoc] at htext
    obtain ⟨hbefore, hlast⟩ := List.append_inj' htext rfl
    rw [hlast] at hp
    exact ⟨p, hp, hbefore⟩

theorem collects_of_find? (hne : ∀ w ∈ r.words, w.text ≠ []) (hnone : r.find? text = none)
    (ho : r.find? (text ++ [c]) = some o) : r.Collects o.word.text o.word.category := by
  obtain ⟨_, hat, _⟩ := find?_eq_some_iff.mp ho
  have hk := category?_of_wordAt? hat
  obtain ⟨p, hp, htext⟩ := exists_word_concat hne hnone ho
  have hin : p <:+: text := by
    rw [← htext]
    exact (List.suffix_append o.before p).isInfix
  rw [hp] at hk ⊢
  exact .first (find?_eq_none_of_isInfix hnone hin) hk

end Reserved

namespace Token
variable {r : Reserved} {splitLiterals : Bool} {t : Token}

/-- The tokens that scanning can yield. -/
inductive Scanned (r : Reserved) (splitLiterals : Bool) : Token → Prop
  | word {text : List Char} {k : Category} (h : r.Collects text k) :
      Scanned r splitLiterals (.ofChars text k)
  | literal {text : List Char} (htrimmed : Trimmed text) (hnone : r.find? text = none)
      (hblank : splitLiterals = true → ∀ c ∈ text, isBlank c = false) :
      Scanned r splitLiterals (.ofChars text .literal)

theorem scanned_of_mem_literals {text : List Char} (hnone : r.find? text = none)
    (hblank : splitLiterals = true → ∀ c ∈ text, isBlank c = false) (ht : t ∈ literals text) :
    t.Scanned r splitLiterals := by
  rw [literals] at ht
  split at ht
  · cases ht
  · rename_i hne
    obtain rfl := List.mem_singleton.mp ht
    apply Scanned.literal
    · exact trimmed_trim (by simpa using hne)
    · exact Reserved.find?_eq_none_of_isInfix hnone (isInfix_trim text)
    · intro hsplit c hc
      exact hblank hsplit c ((isInfix_trim text).subset hc)

/-- What holds of a token by itself, whatever text it comes from. -/
structure WellFormed (r : Reserved) (splitLiterals : Bool) (t : Token) : Prop where
  trimmed : Trimmed t.text.toList
  category?_eq : t.category ≠ .literal → r.category? t.text.toList = some t.category
  wordless : t.category = .literal → ∀ w ∈ r.words, ¬ w.text <:+: t.text.toList
  blankless : splitLiterals = true → t.category = .literal →
    ∀ c ∈ t.text.toList, isBlank c = false

theorem Scanned.wellFormed {v : Vocabulary} (hv : v.Solid)
    (h : t.Scanned v.reserved splitLiterals) : t.WellFormed v.reserved splitLiterals := by
  cases h with
  | @word text k h =>
    have hk := h.category?_eq
    have hne : k ≠ .literal := Vocabulary.category?_ne_literal hk
    obtain ⟨w, hw, rfl, _⟩ := Reserved.exists_of_category? hk
    refine ⟨?_, ?_, fun hk => absurd hk hne, fun _ hk => absurd hk hne⟩
    · rw [ofChars, String.toList_ofList]
      exact Trimmed.of_blankless (hv w hw).1 (hv w hw).2
    · intro _
      rw [ofChars, String.toList_ofList]
      exact hk
  | literal htrimmed hnone hblank =>
    rw [ofChars]
    refine ⟨?_, fun hk => absurd rfl hk, ?_, ?_⟩
    · rwa [String.toList_ofList]
    · intro _
      rw [String.toList_ofList]
      exact Reserved.find?_eq_none_iff.mp hnone
    · intro hsplit _
      rw [String.toList_ofList]
      exact hblank hsplit

end Token

namespace Scanner
variable {v : Vocabulary} {s : Scanner} {buffer : List Char} {c : Char} {k : Category}
  {splitLiterals : Bool}

/-- A held word has been collected from its first character on; if blanks end literals, none has
been collected. -/
structure Collecting (v : Vocabulary) (splitLiterals : Bool) (s : Scanner) : Prop where
  settled : s.Settled v.reserved
  word : ∀ k, s.held = some k → v.reserved.Collects s.buffer k
  blankless : splitLiterals = true → ∀ d ∈ s.buffer, isBlank d = false

theorem collecting_word (hv : v.Solid) (h : v.reserved.Collects buffer k)
    (hhold : k.isHoldable = true) : Collecting v splitLiterals ⟨buffer, some k⟩ := by
  refine ⟨settled_word h.category?_eq hhold, ?_, ?_⟩
  · intro k' hk'
    obtain rfl := Option.some.inj hk'
    exact h
  · intro _
    obtain ⟨w, hw, hwtext, _⟩ := Reserved.exists_of_category? h.category?_eq
    rw [← hwtext]
    exact (hv w hw).2

theorem collecting_text (hnone : v.reserved.find? buffer = none)
    (hblank : splitLiterals = true → ∀ d ∈ buffer, isBlank d = false) :
    Collecting v splitLiterals ⟨buffer, none⟩ :=
  ⟨settled_text hnone, fun _ hk => (nomatch hk), hblank⟩

theorem collecting_start (hv : v.Solid) : start.Collecting v splitLiterals :=
  collecting_text (Reserved.find?_nil_eq_none hv.nonempty) fun _ => nofun

/-- All completed tokens are such as scanning can yield, and the scanner goes on so. -/
def Yields (v : Vocabulary) (splitLiterals : Bool) (read : List Token × Scanner) : Prop :=
  (∀ t ∈ read.1, t.Scanned v.reserved splitLiterals) ∧ read.2.Collecting v splitLiterals

theorem yields_cut (hv : v.Solid) (hnone : v.reserved.find? buffer = none)
    (hblank : splitLiterals = true → ∀ d ∈ buffer ++ [c], isBlank d = false) :
    Yields v splitLiterals (cut v.reserved (buffer ++ [c])) := by
  cases ho : v.reserved.find? (buffer ++ [c]) with
  | none =>
    rw [cut_of_find?_none ho]
    exact ⟨nofun, collecting_text ho hblank⟩
  | some o =>
    have hword := Reserved.collects_of_find? hv.nonempty hnone ho
    obtain ⟨p, _, htext⟩ := Reserved.exists_word_concat hv.nonempty hnone ho
    -- The word ends with the last character, so what stands before it has been searched already.
    have hpre : o.before <+: buffer := ⟨p, htext⟩
    have hliterals : ∀ t ∈ Token.literals o.before, t.Scanned v.reserved splitLiterals := by
      intro t ht
      refine Token.scanned_of_mem_literals ?_ ?_ ht
      · exact Reserved.find?_eq_none_of_isInfix hnone hpre.isInfix
      · intro hsplit d hd
        exact hblank hsplit d (List.mem_append_left _ (hpre.subset hd))
    rw [cut_of_find? hv hnone ho]
    split
    · rename_i hhold
      exact ⟨hliterals, collecting_word hv hword hhold⟩
    · refine ⟨?_, collecting_start hv⟩
      intro t ht
      rcases List.mem_append.mp ht with ht | ht
      · exact hliterals t ht
      · obtain rfl := List.mem_singleton.mp ht
        exact .word hword

theorem yields_settle (hv : v.Solid) (h : v.reserved.Collects buffer k)
    (hc : splitLiterals = true → isBlank c = false) :
    Yields v splitLiterals (settle v.reserved buffer k c) := by
  unfold settle
  cases hnext : v.reserved.category? [c] with
  | some next =>
    refine ⟨?_, collecting_start hv⟩
    intro t ht
    rcases List.mem_pair.mp ht with rfl | rfl
    · exact .word h
    · have hnil : v.reserved.find? [] = none := Reserved.find?_nil_eq_none hv.nonempty
      exact .word (.first hnil hnext)
  | none =>
    constructor
    · intro t ht
      obtain rfl := List.mem_singleton.mp ht
      exact .word h
    · apply collecting_text (Reserved.find?_singleton hv.nonempty hnext)
      intro hsplit d hd
      obtain rfl := List.mem_singleton.mp hd
      exact hc hsplit

theorem yields_step (hv : v.Solid) (hs : s.Collecting v splitLiterals) (c : Char) :
    Yields v splitLiterals (s.step v.reserved splitLiterals c) := by
  cases hheld : s.held with
  | none =>
    have hnone := hs.settled.searched hheld
    rw [step_of_unheld hv hs.settled hheld]
    split
    · rename_i hend
      rw [Bool.and_eq_true] at hend
      refine ⟨?_, collecting_start hv⟩
      intro t ht
      rw [Token.literals_concat hend.2] at ht
      exact Token.scanned_of_mem_literals hnone hs.blankless ht
    · rename_i hend
      apply yields_cut hv hnone
      intro hsplit
      have hc : isBlank c = false := by simpa [hsplit] using hend
      exact blankless_concat (hs.blankless hsplit) hc
  | some k =>
    have hword := hs.word k hheld
    obtain ⟨_, hhold⟩ := hs.settled.word k hheld
    have hne := buffer_ne_nil hv hs.settled hheld
    rw [step_of_held hv hs.settled hheld]
    cases hlonger : v.reserved.category? (s.buffer ++ [c]) with
    | some longer =>
      have hholdable := Vocabulary.isHoldable_of_category? hne hlonger
      exact ⟨nofun, collecting_word hv (hword.longer hhold hlonger) hholdable⟩
    | none =>
      simp only
      split
      · refine ⟨?_, collecting_start hv⟩
        intro t ht
        obtain rfl := List.mem_singleton.mp ht
        exact .word hword
      · rename_i hend
        apply yields_settle hv hword
        intro hsplit
        simpa [hsplit] using hend

theorem scanned_of_mem_finish (hv : v.Solid) (hs : s.Collecting v splitLiterals) {t : Token}
    (ht : t ∈ s.finish v.reserved) : t.Scanned v.reserved splitLiterals := by
  cases hheld : s.held with
  | none =>
    rw [finish_of_unheld hs.settled hheld] at ht
    exact Token.scanned_of_mem_literals (hs.settled.searched hheld) hs.blankless ht
  | some k =>
    rw [finish_of_held hv hs.settled hheld] at ht
    obtain rfl := List.mem_singleton.mp ht
    exact .word (hs.word k hheld)

theorem scanned_of_mem_run (hv : v.Solid) (hs : s.Collecting v splitLiterals)
    {text : List Char} {t : Token} (ht : t ∈ s.run v.reserved splitLiterals text) :
    t.Scanned v.reserved splitLiterals := by
  induction text generalizing s with
  | nil => exact scanned_of_mem_finish hv hs ht
  | cons c text ih =>
    obtain ⟨htokens, hnext⟩ := yields_step hv hs c
    rw [run_cons] at ht
    rcases List.mem_append.mp ht with ht | ht
    · exact htokens t ht
    · exact ih hnext ht

end Scanner

namespace Token

theorem scanned_of_mem_scan {v : Vocabulary} (hv : v.Solid) {splitLiterals : Bool}
    {text : String} {t : Token} (ht : t ∈ scan v.reserved splitLiterals text) :
    t.Scanned v.reserved splitLiterals :=
  Scanner.scanned_of_mem_run hv (Scanner.collecting_start hv) ht

/-- Not both tokens are literals. -/
def Apart (t u : Token) : Prop :=
  t.category = .literal → u.category ≠ .literal

variable {text : List Char} {k : Category} {tokens : List Token}

theorem isChain_word_cons (hk : k ≠ .literal) (h : tokens.IsChain Apart) :
    (ofChars text k :: tokens).IsChain Apart :=
  h.cons fun _ _ hliteral => absurd hliteral hk

theorem ne_literal_of_mem_head?_word_cons (hk : k ≠ .literal) :
    ∀ t ∈ (ofChars text k :: tokens).head?, t.category ≠ .literal := by
  intro t ht
  obtain rfl := Option.some.inj ht
  exact hk

theorem isChain_literals_append (text : List Char) (h : tokens.IsChain Apart)
    (hhead : ∀ t ∈ tokens.head?, t.category ≠ .literal) :
    (literals text ++ tokens).IsChain Apart := by
  rw [literals]
  split
  · exact h
  · exact h.cons fun t ht _ => hhead t ht

end Token

namespace Scanner
variable {v : Vocabulary} {s : Scanner} {tokens : List Token}

/-- The tokens can be what the scanner goes on to yield: literals are apart, and a held word is a
token before any literal is. -/
structure Parts (s : Scanner) (tokens : List Token) : Prop where
  chain : tokens.IsChain Token.Apart
  head : s.held ≠ none → ∀ t ∈ tokens.head?, t.category ≠ .literal

theorem parts_word_cons {text : List Char} {k : Category} (s : Scanner) (hk : k ≠ .literal)
    (h : tokens.IsChain Token.Apart) : s.Parts (.ofChars text k :: tokens) :=
  ⟨Token.isChain_word_cons hk h, fun _ => Token.ne_literal_of_mem_head?_word_cons hk⟩

theorem parts_finish (hv : v.Solid) (hs : s.Settled v.reserved) :
    s.Parts (s.finish v.reserved) := by
  cases hheld : s.held with
  | none =>
    refine ⟨?_, fun h => absurd hheld h⟩
    rw [finish_of_unheld hs hheld, ← List.append_nil (Token.literals s.buffer)]
    exact Token.isChain_literals_append s.buffer .nil nofun
  | some k =>
    rw [finish_of_held hv hs hheld]
    exact parts_word_cons s (Vocabulary.category?_ne_literal (hs.word k hheld).1) .nil

/-- If blanks do not end literals, only a word does. -/
theorem parts_step (hv : v.Solid) (hs : s.Settled v.reserved) (c : Char)
    (h : (s.step v.reserved false c).2.Parts tokens) :
    s.Parts ((s.step v.reserved false c).1 ++ tokens) := by
  cases hheld : s.held with
  | none =>
    refine ⟨?_, fun h => absurd hheld h⟩
    have hnone := hs.searched hheld
    rw [step_of_unheld hv hs hheld, Bool.false_and, if_neg Bool.false_ne_true] at h ⊢
    cases ho : v.reserved.find? (s.buffer ++ [c]) with
    | none =>
      rw [cut_of_find?_none ho] at h ⊢
      exact h.chain
    | some o =>
      obtain ⟨_, hat, _⟩ := Reserved.find?_eq_some_iff.mp ho
      have hk := Vocabulary.category?_ne_literal (Reserved.category?_of_wordAt? hat)
      rw [cut_of_find? hv hnone ho] at h ⊢
      by_cases hhold : o.word.category.isHoldable = true
      · -- The literal is completed, but the word behind it only is held: it comes next.
        rw [if_pos hhold] at h ⊢
        exact Token.isChain_literals_append o.before h.chain (h.head nofun)
      · rw [if_neg hhold] at h ⊢
        rw [List.append_assoc]
        exact Token.isChain_literals_append o.before (Token.isChain_word_cons hk h.chain)
          (Token.ne_literal_of_mem_head?_word_cons hk)
  | some k =>
    have hk := Vocabulary.category?_ne_literal (hs.word k hheld).1
    rw [step_of_held hv hs hheld] at h ⊢
    cases hlonger : v.reserved.category? (s.buffer ++ [c]) with
    | some longer =>
      rw [hlonger] at h
      exact ⟨h.chain, fun _ => h.head nofun⟩
    | none =>
      simp only [hlonger, Bool.false_and, Bool.false_eq_true, if_false, settle] at h ⊢
      cases hnext : v.reserved.category? [c] with
      | some next =>
        rw [hnext] at h
        exact parts_word_cons s hk
          (Token.isChain_word_cons (Vocabulary.category?_ne_literal hnext) h.chain)
      | none =>
        rw [hnext] at h
        exact parts_word_cons s hk h.chain

theorem parts_run (hv : v.Solid) (hs : s.Settled v.reserved) (text : List Char) :
    s.Parts (s.run v.reserved false text) := by
  induction text generalizing s with
  | nil => exact parts_finish hv hs
  | cons c text ih =>
    rw [run_cons]
    exact parts_step hv hs c (ih (settled_step hv hs false c))

end Scanner

namespace Token

theorem isChain_scan {v : Vocabulary} (hv : v.Solid) (text : String) :
    (scan v.reserved false text).IsChain Apart :=
  (Scanner.parts_run hv (Scanner.settled_start hv) (beforeNul text.toList)).chain

/-- All tokens of a text are well formed, and if blanks do not end literals no two literals stand
side by side. -/
theorem wellFormed_scan {v : Vocabulary} (hv : v.Solid) (splitLiterals : Bool) (text : String) :
    (∀ t ∈ scan v.reserved splitLiterals text, t.WellFormed v.reserved splitLiterals) ∧
      (splitLiterals = false → (scan v.reserved splitLiterals text).IsChain
        fun t u => t.category = .literal → u.category ≠ .literal) := by
  constructor
  · intro t ht
    exact (scanned_of_mem_scan hv ht).wellFormed hv
  · rintro rfl
    exact isChain_scan hv text

/-- An operator that begins a longer one stands directly in front of a reference, and a literal
has blanks within it. -/
theorem wellFormed_scan_names :
    (∀ t ∈ scan Vocabulary.standard.reserved false "!X509.TBS.Subject.CN+ != John  Smith ",
      t.WellFormed Vocabulary.standard.reserved false) ∧
    (false = false →
      (scan Vocabulary.standard.reserved false "!X509.TBS.Subject.CN+ != John  Smith ").IsChain
        fun t u => t.category = .literal → u.category ≠ .literal) :=
  wellFormed_scan Vocabulary.solid_standard false "!X509.TBS.Subject.CN+ != John  Smith "

end Token
end CertPolicy
