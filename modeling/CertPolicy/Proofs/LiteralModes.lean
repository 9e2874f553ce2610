import CertPolicy.Proofs.SolidWords
import CertPolicy.Proofs.StandardScan

/-!
# Literals with blanks and without

Whether blanks end literals makes no difference but inside literals. Two scanners read the same
text here, of which one keeps blanks in literals and the other does not. What the first one has
collected is a part that ends in a blank and is in literals already at the second one, and what
the second one has collected; a held word is all that either has collected.
-/

namespace CertPolicy
set_option autoImplicit false

namespace Token

/-- The pieces of a text, each one a literal. -/
def pieceLiterals (text : List Char) : List Token :=
  (pieces text).map fun piece => .ofChars piece .literal

/-- A literal gives way to the literals of its pieces; any other token stays. -/
def split (t : Token) : List Token :=
  if t.category = .literal then pieceLiterals t.text.toList else [t]

def splitAll (tokens : List Token) : List Token :=
  tokens.flatMap split

@[simp] theorem pieceLiterals_nil : pieceLiterals [] = [] := by
  rw [pieceLiterals, pieces_nil]
  rfl

theorem pieceLiterals_append {s : List Char} (hs : EndsInBlank s) (t : List Char) :
    pieceLiterals (s ++ t) = pieceLiterals s ++ pieceLiterals t := by
  rw [pieceLiterals, pieces_append hs, List.map_append]
  rfl

theorem pieceLiterals_of_blankless {text : List Char} (h : ∀ c ∈ text, isBlank c = false) :
    pieceLiterals text = literals text := by
  rw [pieceLiterals, pieces_of_blankless h, literals, trim_eq_self h]
  cases text <;> rfl

theorem splitAll_append (ts us : List Token) :
    splitAll (ts ++ us) = splitAll ts ++ splitAll us :=
  List.flatMap_append

theorem splitAll_word {k : Category} (hk : k ≠ .literal) (text : List Char) :
    splitAll [.ofChars text k] = [.ofChars text k] := by
  rw [splitAll, List.flatMap_singleton, split]
  exact if_neg hk

theorem splitAll_literals (text : List Char) :
    splitAll (literals text) = pieceLiterals text := by
  rw [pieceLiterals, ← pieces_trim, literals]
  split
  · rename_i hnil
    rw [List.isEmpty_iff.mp hnil, pieces_nil]
    rfl
  · rw [splitAll, List.flatMap_singleton, Token.split, ofChars, if_pos rfl, String.toList_ofList]
    rfl

/-- Splitting literals leaves the other tokens and their order. -/
theorem filter_splitAll (tokens : List Token) :
    (splitAll tokens).filter (·.category ≠ .literal) =
      tokens.filter (·.category ≠ .literal) := by
  induction tokens with
  | nil => rfl
  | cons t tokens ih =>
    rw [splitAll, List.flatMap_cons, List.filter_append]
    by_cases ht : t.category = .literal
    · have hnone : t.split.filter (·.category ≠ .literal) = [] := by
        rw [split, if_pos ht, List.filter_eq_nil_iff]
        intro u hu
        obtain ⟨piece, _, rfl⟩ := List.mem_map.mp hu
        simp [ofChars]
      rw [hnone, List.filter_cons_of_neg (by simp [ht])]
      exact ih
    · rw [split, if_neg ht, List.filter_cons_of_pos (by simp [ht]), List.filter_nil,
        List.filter_cons_of_pos (by simp [ht])]
      exact congrArg (t :: ·) ih

end Token

namespace Scanner
variable {v : Vocabulary} {s t : Scanner} {done : List Char} {c : Char} {k : Category}

/-- The scanner `s`, which keeps blanks in literals, has collected `done` before all that `t`
has collected. -/
structure Lags (done : List Char) (s t : Scanner) : Prop where
  buffer : s.buffer = done ++ t.buffer
  held : s.held = t.held
  ended : EndsInBlank done
  /-- There is nothing before a held word. -/
  caughtUp : t.held ≠ none → done = []
  blankless : ∀ c ∈ t.buffer, isBlank c = false

theorem lags_self (hblank : ∀ c ∈ s.buffer, isBlank c = false) : Lags [] s s :=
  ⟨rfl, rfl, endsInBlank_nil, fun _ => rfl, hblank⟩

/-- What the scanners make of the same character leaves one behind the other, and their tokens
differ in literals only. -/
def Agree (done : List Char) (read read' : List Token × Scanner) : Prop :=
  ∃ left, Lags left read.2 read'.2 ∧
    Token.splitAll read.1 ++ Token.pieceLiterals left = Token.pieceLiterals done ++ read'.1

theorem agree_self (hblank : ∀ c ∈ s.buffer, isBlank c = false) : Agree [] ([], s) ([], s) :=
  ⟨[], lags_self hblank, rfl⟩

theorem Agree.word_cons {ts us : List Token} (h : Agree [] (ts, s) (us, t)) (hk : k ≠ .literal)
    (word : List Char) : Agree [] (.ofChars word k :: ts, s) (.ofChars word k :: us, t) := by
  obtain ⟨left, hlags, htokens⟩ := h
  refine ⟨left, hlags, ?_⟩
  rw [Token.pieceLiterals_nil, List.nil_append] at htokens ⊢
  rw [← List.singleton_append, Token.splitAll_append, Token.splitAll_word hk, List.append_assoc,
    htokens]
  rfl

/-- A blank ends all that has been collected if it ends literals. -/
theorem agree_of_blank (hdone : EndsInBlank done) (buffer : List Char)
    (hbuffer : ∀ d ∈ buffer, isBlank d = false) (hc : isBlank c = true) :
    Agree done ([], ⟨done ++ buffer ++ [c], none⟩) (Token.literals (buffer ++ [c]), start) := by
  refine ⟨done ++ buffer ++ [c], ⟨?_, rfl, ?_, fun h => absurd rfl h, nofun⟩, ?_⟩
  · exact (List.append_nil _).symm
  · exact endsInBlank_concat hc (done ++ buffer)
  · rw [Token.literals_concat hc, ← Token.pieceLiterals_of_blankless hbuffer,
      ← Token.pieceLiterals_append hdone, Token.pieceLiterals, pieces_concat hc]
    rfl

theorem agree_settle (hk : k ≠ .literal) (hc : isBlank c = false) (word : List Char) :
    Agree [] (settle v.reserved word k c) (settle v.reserved word k c) := by
  unfold settle
  cases hnext : v.reserved.category? [c] with
  | some next =>
    have hstart : Agree [] ([], start) ([], start) := agree_self nofun
    exact (hstart.word_cons (Vocabulary.category?_ne_literal hnext) [c]).word_cons hk word
  | none =>
    have hblank : ∀ d ∈ [] ++ [c], isBlank d = false := blankless_concat nofun hc
    exact (agree_self hblank).word_cons hk word

theorem agree_of_held (hv : v.Solid) (hs : s.Settled v.reserved) (hheld : s.held = some k)
    (c : Char) : Agree [] (s.step v.reserved false c) (s.step v.reserved true c) := by
  have hk : k ≠ .literal := Vocabulary.category?_ne_literal (hs.word k hheld).1
  rw [step_of_held hv hs hheld, step_of_held hv hs hheld]
  cases hcategory : v.reserved.category? (s.buffer ++ [c]) with
  | some longer =>
    obtain ⟨w, hw, hwtext, _⟩ := Reserved.exists_of_category? hcategory
    exact agree_self (hwtext ▸ (hv w hw).2)
  | none =>
    cases hc : isBlank c with
    | true =>
      have hnext : v.reserved.category? [c] = none :=
        hv.category?_eq_none List.mem_cons_self hc
      have hliterals : Token.literals [c] = [] := Token.literals_concat hc []
      have hblank : Agree [] ([], ⟨[c], none⟩) (Token.literals [c], start) :=
        agree_of_blank endsInBlank_nil [] nofun hc
      rw [hliterals] at hblank
      simp only [settle, hnext]
      exact hblank.word_cons hk s.buffer
    | false => exact agree_settle hk hc s.buffer

theorem agree_of_cut (hv : v.Solid) (hended : EndsInBlank done) {buffer : List Char}
    (hnone : v.reserved.find? (done ++ buffer) = none)
    (hblank : ∀ d ∈ buffer ++ [c], isBlank d = false) :
    Agree done (cut v.reserved (done ++ buffer ++ [c])) (cut v.reserved (buffer ++ [c])) := by
  have hdone : v.reserved.find? done = none :=
    Reserved.find?_eq_none_of_isInfix hnone (List.prefix_append done buffer).isInfix
  have hbuffer : v.reserved.find? buffer = none :=
    Reserved.find?_eq_none_of_isInfix hnone (List.suffix_append done buffer).isInfix
  have hfind : v.reserved.find? (done ++ buffer ++ [c]) =
      (v.reserved.find? (buffer ++ [c])).map fun o => { o with before := done ++ o.before } := by
    rw [List.append_assoc]
    exact hv.find?_append_of_endsInBlank hended hdone
  cases ho : v.reserved.find? (buffer ++ [c]) with
  | none =>
    rw [ho] at hfind
    rw [cut_of_find?_none ho, cut_of_find?_none hfind]
    refine ⟨done, ⟨List.append_assoc _ _ _, rfl, hended, fun h => absurd rfl h, hblank⟩, ?_⟩
    exact (List.append_nil _).symm
  | some o =>
    rw [ho] at hfind
    obtain ⟨htext, hat, _⟩ := Reserved.find?_eq_some_iff.mp ho
    have hword := Reserved.category?_of_wordAt? hat
    -- The literal in front of the word has `done` in it at one scanner only.
    have hbefore : Token.splitAll (Token.literals (done ++ o.before)) =
        Token.pieceLiterals done ++ Token.literals o.before := by
      have hblankless : ∀ d ∈ o.before, isBlank d = false := by
        intro d hd
        apply hblank
        rw [← htext]
        exact List.mem_append_left _ hd
      rw [Token.splitAll_literals, Token.pieceLiterals_append hended,
        Token.pieceLiterals_of_blankless hblankless]
    rw [cut_of_find? hv hbuffer ho, cut_of_find? hv hnone hfind]
    split
    · have hblankless := (hv o.word (Reserved.mem_of_wordAt? hat).1).2
      refine ⟨[], lags_self hblankless, ?_⟩
      rw [hbefore]
      exact List.append_nil _
    · have hsplit := Token.splitAll_word (Vocabulary.category?_ne_literal hword) o.word.text
      refine ⟨[], lags_self nofun, ?_⟩
      rw [Token.splitAll_append, hbefore, hsplit, Token.pieceLiterals_nil, List.append_nil,
        List.append_assoc]

theorem agree_step (hv : v.Solid) (hs : s.Settled v.reserved) (ht : t.Settled v.reserved)
    (h : Lags done s t) (c : Char) :
    Agree done (s.step v.reserved false c) (t.step v.reserved true c) := by
  cases hheld : t.held with
  | some k =>
    have hdone : done = [] := h.caughtUp (by simp [hheld])
    obtain ⟨hbuffer, hsame, _, _, _⟩ := h
    rw [hdone, List.nil_append] at hbuffer
    -- Behind a held word the two scanners are the same one.
    have hst : s = t := by
      obtain ⟨buffer, held⟩ := s
      obtain ⟨buffer', held'⟩ := t
      rw [Scanner.mk.injEq]
      exact ⟨hbuffer, hsame⟩
    rw [hdone, hst]
    exact agree_of_held hv ht hheld c
  | none =>
    have hnone := hs.searched (h.held.trans hheld)
    rw [step_of_unheld hv hs (h.held.trans hheld), step_of_unheld hv ht hheld, h.buffer]
    rw [h.buffer] at hnone
    cases hc : isBlank c with
    | true =>
      have hcut : v.reserved.find? (done ++ t.buffer ++ [c]) = none := hv.find?_concat hnone hc
      rw [cut_of_find?_none hcut]
      exact agree_of_blank h.ended t.buffer h.blankless hc
    | false =>
      exact agree_of_cut hv h.ended hnone (blankless_concat h.blankless hc)

theorem splitAll_finish (hv : v.Solid) (hs : s.Settled v.reserved) (ht : t.Settled v.reserved)
    (h : Lags done s t) : Token.splitAll (s.finish v.reserved) =
      Token.pieceLiterals done ++ t.finish v.reserved := by
  cases hheld : t.held with
  | some k =>
    obtain ⟨hk, _⟩ := ht.word k hheld
    rw [finish_of_held hv hs (h.held.trans hheld), finish_of_held hv ht hheld, h.buffer,
      h.caughtUp (by simp [hheld]), Token.splitAll_word (Vocabulary.category?_ne_literal hk)]
    rfl
  | none =>
    rw [finish_of_unheld hs (h.held.trans hheld), finish_of_unheld ht hheld,
      Token.splitAll_literals, h.buffer, Token.pieceLiterals_append h.ended,
      Token.pieceLiterals_of_blankless h.blankless]

theorem splitAll_run (hv : v.Solid) (hs : s.Settled v.reserved) (ht : t.Settled v.reserved)
    (h : Lags done s t) (text : List Char) :
    Token.splitAll (s.run v.reserved false text) =
      Token.pieceLiterals done ++ t.run v.reserved true text := by
  induction text generalizing done s t with
  | nil => exact splitAll_finish hv hs ht h
  | cons c text ih =>
    obtain ⟨left, hlags, htokens⟩ := agree_step hv hs ht h c
    have hrest := ih (settled_step hv hs false c) (settled_step hv ht true c) hlags
    rw [run_cons, run_cons, Token.splitAll_append, hrest, ← List.append_assoc, htokens,
      List.append_assoc]

end Scanner

/-- Literals cut at their blanks, the tokens of a text are the same whether blanks end literals
or not; the words among them are so in any case. -/
theorem Token.splitAll_scan {v : Vocabulary} (hv : v.Solid) (text : String) :
    splitAll (scan v.reserved false text) = scan v.reserved true text ∧
      (scan v.reserved false text).filter (·.category ≠ .literal) =
        (scan v.reserved true text).filter (·.category ≠ .literal) := by
  have hstart := Scanner.settled_start hv
  have hsplit : splitAll (scan v.reserved false text) = scan v.reserved true text :=
    Scanner.splitAll_run hv hstart hstart (Scanner.lags_self nofun) (beforeNul text.toList)
  refine ⟨hsplit, ?_⟩
  rw [← hsplit, filter_splitAll]

theorem Token.splitAll_scan_standard :
    splitAll (scan Vocabulary.standard.reserved false "John  Smith!= a b") =
        scan Vocabulary.standard.reserved true "John  Smith!= a b" ∧
      (scan Vocabulary.standard.reserved false "John  Smith!= a b").filter
          (·.category ≠ .literal) =
        (scan Vocabulary.standard.reserved true "John  Smith!= a b").filter
          (·.category ≠ .literal) :=
  splitAll_scan Vocabulary.solid_standard "John  Smith!= a b"

end CertPolicy
