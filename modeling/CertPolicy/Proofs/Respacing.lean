import CertPolicy.Proofs.Conservation
import CertPolicy.Proofs.ScannedTokens

/-!
# Tokens written out again

The tokens of a text, written with one space between any two of them, are read as just these
tokens. A word is read as it was collected the first time, whatever blanks stand in front of it.
A literal holds no word and ends where the next token begins: at the space if blanks end
literals, and else at a word, since no other literal follows.
-/

namespace CertPolicy
set_option autoImplicit false

namespace Token
variable {t : Token} {tokens : List Token}

/-- The texts of the tokens with a space between any two. -/
def joined (tokens : List Token) : String :=
  String.intercalate " " (tokens.map (·.text))

/-- The texts of the tokens, each behind a space. -/
def spaced (tokens : List Token) : List Char :=
  tokens.flatMap fun t => ' ' :: t.text.toList

theorem spaced_cons (t : Token) (tokens : List Token) :
    spaced (t :: tokens) = ' ' :: (t.text.toList ++ spaced tokens) := by
  rw [spaced, List.flatMap_cons, List.cons_append]
  rfl

theorem toList_joined_cons (t : Token) (tokens : List Token) :
    (joined (t :: tokens)).toList = t.text.toList ++ spaced tokens := by
  rw [joined, String.toList_intercalate, List.map_cons]
  induction tokens generalizing t with
  | nil =>
    rw [List.map_nil, List.map_cons, List.map_nil, List.intercalate_singleton]
    exact (List.append_nil _).symm
  | cons u tokens ih =>
    have hspace : " ".toList = [' '] := rfl
    rw [List.map_cons, List.map_cons, List.map_cons, List.intercalate_cons_cons, ← List.map_cons,
      ih, spaced_cons, hspace, List.append_assoc]
    rfl

theorem isBlank_of_mem_head?_spaced : ∀ c ∈ (spaced tokens).head?, isBlank c = true := by
  cases tokens with
  | nil => exact nofun
  | cons t tokens =>
    intro c hc
    rw [spaced_cons] at hc
    obtain rfl := Option.some.inj hc
    rfl

end Token

namespace Scanner
variable {v : Vocabulary} {splitLiterals : Bool} {buffer text rest : List Char} {c : Char}
  {k : Category}

/-- A text that brings up no word is collected. -/
theorem run_wordless (hv : v.Solid) (hnone : v.reserved.find? (buffer ++ text) = none)
    (hblank : splitLiterals = true → ∀ d ∈ text, isBlank d = false) :
    run v.reserved splitLiterals ⟨buffer, none⟩ (text ++ rest) =
      run v.reserved splitLiterals ⟨buffer ++ text, none⟩ rest := by
  induction text generalizing buffer with
  | nil => rw [List.nil_append, List.append_nil]
  | cons c text ih =>
    rw [← List.singleton_append, ← List.append_assoc] at hnone
    have hcut : v.reserved.find? (buffer ++ [c]) = none :=
      Reserved.find?_eq_none_of_isInfix hnone (List.prefix_append _ text).isInfix
    have hbuffer : v.reserved.find? buffer = none :=
      Reserved.find?_eq_none_of_isInfix hcut (List.prefix_append buffer [c]).isInfix
    have hgo : ¬ (splitLiterals && isBlank c) = true := by
      cases splitLiterals with
      | false => exact Bool.false_ne_true
      | true => simp [hblank rfl c List.mem_cons_self]
    have hrest : splitLiterals = true → ∀ d ∈ text, isBlank d = false :=
      fun hsplit d hd => hblank hsplit d (List.mem_cons_of_mem c hd)
    rw [List.cons_append, run_cons, step_of_unheld hv (settled_text hbuffer) rfl, if_neg hgo,
      cut_of_find?_none hcut, ih hnone hrest, List.append_assoc]
    rfl

/-- Behind a text that ends in a blank, a word is collected as from the beginning. -/
theorem run_collects (hv : v.Solid) (hbuffer : EndsInBlank buffer)
    (hnone : v.reserved.find? buffer = none) (h : v.reserved.Collects text k)
    (rest : List Char) :
    run v.reserved splitLiterals ⟨buffer, none⟩ (text ++ rest) = Token.literals buffer ++
      if k.isHoldable then run v.reserved splitLiterals ⟨text, some k⟩ rest
      else .ofChars text k :: run v.reserved splitLiterals start rest := by
  induction h generalizing rest with
  | @first text c k htext hk =>
    -- No word reaches over the blank, so none comes up before the last character here either.
    have hblank : ∀ d ∈ text ++ [c], isBlank d = false := by
      obtain ⟨w, hw, hwtext, _⟩ := Reserved.exists_of_category? hk
      rw [← hwtext]
      exact (hv w hw).2
    have hboth : v.reserved.find? (buffer ++ text) = none := by
      rw [hv.find?_append_of_endsInBlank hbuffer hnone, htext]
      rfl
    have hfind := Reserved.find?_of_category? htext hk
    have hcut : v.reserved.find? (buffer ++ text ++ [c]) =
        some ⟨buffer, ⟨text ++ [c], k⟩, text ++ [c]⟩ := by
      rw [List.append_assoc, hv.find?_append_of_endsInBlank hbuffer hnone, hfind,
        Option.map_some, List.append_nil]
    have hgo : ¬ (splitLiterals && isBlank c) = true := by
      simp [hblank c (List.mem_append_right _ List.mem_cons_self)]
    rw [List.append_assoc, List.singleton_append,
      run_wordless hv hboth fun _ d hd => hblank d (List.mem_append_left _ hd), run_cons,
      step_of_unheld hv (settled_text hboth) rfl, if_neg hgo, cut_of_find? hv hboth hcut]
    by_cases hhold : k.isHoldable = true
    · rw [if_pos hhold, if_pos hhold]
    · rw [if_neg hhold, if_neg hhold, List.append_assoc]
      rfl
  | @longer text c k k' h hhold hk ih =>
    have hs : Settled v.reserved ⟨text, some k⟩ := settled_word h.category?_eq hhold
    have hlonger := Vocabulary.isHoldable_of_category? (buffer_ne_nil hv hs rfl) hk
    rw [List.append_assoc, ih, if_pos hhold, if_pos hlonger, List.singleton_append, run_cons,
      step_of_held hv hs rfl, hk]
    rfl

/-- A held word is a token in front of a blank, which is then read as at the beginning. -/
theorem run_held (hv : v.Solid) (hk : v.reserved.category? text = some k)
    (hhold : k.isHoldable = true) (hrest : ∀ d ∈ rest.head?, isBlank d = true) :
    run v.reserved splitLiterals ⟨text, some k⟩ rest =
      .ofChars text k :: run v.reserved splitLiterals start rest := by
  have hs : Settled v.reserved ⟨text, some k⟩ := settled_word hk hhold
  cases rest with
  | nil =>
    rw [run, finish_of_held hv hs rfl]
    rfl
  | cons c rest =>
    have hc : isBlank c = true := hrest c rfl
    have hnot : v.reserved.category? (text ++ [c]) = none :=
      hv.category?_eq_none (List.mem_append_right _ List.mem_cons_self) hc
    have hnext : v.reserved.category? [c] = none := hv.category?_eq_none List.mem_cons_self hc
    have hcut : v.reserved.find? [c] = none := Reserved.find?_singleton hv.nonempty hnext
    rw [run_cons, run_cons, step_of_held hv hs rfl, step_of_unheld hv (settled_start hv) rfl, hnot]
    cases splitLiterals with
    | false =>
      have hcollect : cut v.reserved (start.buffer ++ [c]) = ([], ⟨[c], none⟩) :=
        cut_of_find?_none hcut
      simp only [Bool.false_and, Bool.false_eq_true, if_false, settle, hnext, hcollect]
      rfl
    | true =>
      have hliterals : Token.literals (start.buffer ++ [c]) = [] := Token.literals_concat hc []
      simp only [Bool.true_and, hc, if_true, hliterals]
      rfl

/-- A token is read back in front of a blank: it is completed, or it is what is collected then.
A literal needs that nothing but blanks has been collected before. -/
theorem exists_run_token (hv : v.Solid) {t : Token} (ht : t.Scanned v.reserved splitLiterals)
    (hbuffer : EndsInBlank buffer) (hnone : v.reserved.find? buffer = none)
    (hliteral : t.category = .literal → ∀ d ∈ buffer, isBlank d = true) :
    ∃ ended left, v.reserved.find? left = none ∧ (t.category ≠ .literal → left = []) ∧
      ended ++ Token.literals left = Token.literals buffer ++ [t] ∧
      ∀ rest, (∀ d ∈ rest.head?, isBlank d = true) →
        run v.reserved splitLiterals ⟨buffer, none⟩ (t.text.toList ++ rest) =
          ended ++ run v.reserved splitLiterals ⟨left, none⟩ rest := by
  cases ht with
  | @word text k h =>
    refine ⟨Token.literals buffer ++ [.ofChars text k], [],
      Reserved.find?_nil_eq_none hv.nonempty, fun _ => rfl, List.append_nil _, ?_⟩
    intro rest hrest
    rw [Token.ofChars, String.toList_ofList, run_collects hv hbuffer hnone h, List.append_assoc]
    by_cases hhold : k.isHoldable = true
    · rw [if_pos hhold, run_held hv h.category?_eq hhold hrest]
      rfl
    · rw [if_neg hhold]
      rfl
  | @literal text htrimmed htext hblank =>
    have hblanks : ∀ d ∈ buffer, isBlank d = true := hliteral rfl
    have hboth : v.reserved.find? (buffer ++ text) = none := by
      rw [hv.find?_append_of_endsInBlank hbuffer hnone, htext]
      rfl
    have hempty : Token.literals buffer = [] := by
      have htrim := trim_append hblanks []
      rw [List.append_nil] at htrim
      rw [Token.literals, htrim]
      rfl
    refine ⟨[], buffer ++ text, hboth, fun h => absurd rfl h, ?_, ?_⟩
    · have htrim : trim (buffer ++ text) = text := by rw [trim_append hblanks, htrimmed.trim_eq]
      rw [hempty, Token.literals, htrim, if_neg (by simpa using htrimmed.ne_nil)]
    · intro rest _
      rw [Token.ofChars, String.toList_ofList]
      exact run_wordless hv hboth hblank

/-- A blank ends what is collected or goes with it. -/
theorem exists_run_blank (hv : v.Solid) (splitLiterals : Bool)
    (hnone : v.reserved.find? buffer = none) (hc : isBlank c = true) :
    ∃ ended left, EndsInBlank left ∧ v.reserved.find? left = none ∧
      ((splitLiterals = false → ∀ d ∈ buffer, isBlank d = true) → ∀ d ∈ left, isBlank d = true) ∧
      ended ++ Token.literals left = Token.literals buffer ∧
      ∀ rest, run v.reserved splitLiterals ⟨buffer, none⟩ (c :: rest) =
        ended ++ run v.reserved splitLiterals ⟨left, none⟩ rest := by
  have hs : Settled v.reserved ⟨buffer, none⟩ := settled_text hnone
  cases splitLiterals with
  | false =>
    have hleft : v.reserved.find? (buffer ++ [c]) = none := hv.find?_concat hnone hc
    refine ⟨[], buffer ++ [c], endsInBlank_concat hc buffer, hleft, ?_,
      Token.literals_concat hc buffer, ?_⟩
    · intro hblank d hd
      rcases List.mem_append.mp hd with hd | hd
      · exact hblank rfl d hd
      · rw [List.mem_singleton.mp hd]
        exact hc
    · intro rest
      rw [run_cons, step_of_unheld hv hs rfl, Bool.false_and, if_neg Bool.false_ne_true,
        cut_of_find?_none hleft]
  | true =>
    refine ⟨Token.literals buffer, [], endsInBlank_nil, Reserved.find?_nil_eq_none hv.nonempty,
      fun _ => nofun, List.append_nil _, ?_⟩
    intro rest
    rw [run_cons, step_of_unheld hv hs rfl, hc, Token.literals_concat hc]
    rfl

/-- The first token is read back with what follows it. What then has been collected is nothing, or
the literal that it is, and the next token is read behind that and a blank. -/
theorem run_joined (hv : v.Solid) {t : Token} {tokens : List Token}
    (hscanned : ∀ u ∈ t :: tokens, u.Scanned v.reserved splitLiterals)
    (hchain : splitLiterals = false → (t :: tokens).IsChain Token.Apart)
    (hbuffer : EndsInBlank buffer) (hnone : v.reserved.find? buffer = none)
    (hliteral : t.category = .literal → ∀ d ∈ buffer, isBlank d = true) :
    run v.reserved splitLiterals ⟨buffer, none⟩ (t.text.toList ++ Token.spaced tokens) =
      Token.literals buffer ++ t :: tokens := by
  induction tokens generalizing t buffer with
  | nil =>
    obtain ⟨ended, left, hleft, _, hended, hrun⟩ :=
      exists_run_token hv (hscanned t List.mem_cons_self) hbuffer hnone hliteral
    rw [hrun _ Token.isBlank_of_mem_head?_spaced, ← hended]
    exact congrArg (ended ++ ·) (finish_of_unheld (settled_text hleft) rfl)
  | cons u tokens ih =>
    obtain ⟨ended, left, hleft, hword, hended, hrun⟩ :=
      exists_run_token hv (hscanned t List.mem_cons_self) hbuffer hnone hliteral
    have hspace : isBlank ' ' = true := rfl
    obtain ⟨ended', left', hbuffer', hleft', hblanks, hended', hrun'⟩ :=
      exists_run_blank hv splitLiterals hleft hspace
    have hrest := ih (fun w hw => hscanned w (List.mem_cons_of_mem t hw))
      (fun hsplit => (hchain hsplit).tail) hbuffer' hleft' ?_
    · calc run v.reserved splitLiterals ⟨buffer, none⟩ (t.text.toList ++ Token.spaced (u :: tokens))
          = ended ++ run v.reserved splitLiterals ⟨left, none⟩
              (' ' :: (u.text.toList ++ Token.spaced tokens)) := by
            rw [hrun _ Token.isBlank_of_mem_head?_spaced, Token.spaced_cons]
        _ = ended ++ (ended' ++ (Token.literals left' ++ u :: tokens)) := by rw [hrun', hrest]
        _ = ended ++ Token.literals left ++ u :: tokens := by
            rw [← List.append_assoc ended', hended', List.append_assoc]
        _ = Token.literals buffer ++ t :: u :: tokens := by
            rw [hended, List.append_assoc, List.singleton_append]
    · -- A literal that is not kept apart by the blank stands behind a word.
      intro hu
      apply hblanks
      intro hsplit d hd
      have happart : t.Apart u := (List.isChain_cons_cons.mp (hchain hsplit)).1
      rw [hword fun ht => happart ht hu] at hd
      cases hd

end Scanner

namespace Token

/-- Tokens that scanning can yield, in an order in which it can yield them, are read back. -/
theorem scan_joined_of_scanned {v : Vocabulary} (hv : v.Solid) {splitLiterals : Bool}
    {tokens : List Token} (hscanned : ∀ t ∈ tokens, t.Scanned v.reserved splitLiterals)
    (hchain : splitLiterals = false → tokens.IsChain Apart)
    (hnul : ∀ t ∈ tokens, '\x00' ∉ t.text.toList) :
    scan v.reserved splitLiterals (joined tokens) = tokens := by
  cases tokens with
  | nil => rfl
  | cons t tokens =>
    have hjoined : '\x00' ∉ (joined (t :: tokens)).toList := by
      rw [toList_joined_cons, spaced, List.mem_append, List.mem_flatMap]
      rintro (hmem | ⟨u, hu, hmem⟩)
      · exact hnul t List.mem_cons_self hmem
      · rcases List.mem_cons.mp hmem with hspace | hmem
        · cases hspace
        · exact hnul u (List.mem_cons_of_mem t hu) hmem
    have hstart : v.reserved.find? [] = none := Reserved.find?_nil_eq_none hv.nonempty
    rw [scan, beforeNul_eq_self hjoined, toList_joined_cons]
    apply Scanner.run_joined hv hscanned hchain endsInBlank_nil hstart
    intro _ d hd
    cases hd

theorem nul_notMem_of_mem_scan {r : Reserved} {splitLiterals : Bool} {text : String} {t : Token}
    (ht : t ∈ scan r splitLiterals text) : '\x00' ∉ t.text.toList := by
  intro hmem
  have hnonblank : '\x00' ∈ nonblanks (written (scan r splitLiterals text)) := by
    apply List.mem_filter.mpr
    exact ⟨List.mem_flatMap.mpr ⟨t, ht, hmem⟩, rfl⟩
  rw [scan, Scanner.nonblanks_written_run] at hnonblank
  have hnul := List.mem_takeWhile_imp (List.mem_filter.mp hnonblank).1
  cases hnul

/-- The tokens of a text, joined with single spaces, are read as the same tokens. -/
theorem scan_joined {v : Vocabulary} (hv : v.Solid) (splitLiterals : Bool) (text : String) :
    scan v.reserved splitLiterals (joined (scan v.reserved splitLiterals text)) =
      scan v.reserved splitLiterals text := by
  apply scan_joined_of_scanned hv
  · intro t ht
    exact scanned_of_mem_scan hv ht
  · rintro rfl
    exact isChain_scan hv text
  · intro t ht
    exact nul_notMem_of_mem_scan ht

/-- The words of `X509.TBS.Subject.C` and its longer forms begin one another. -/
theorem scan_joined_subject :
    scan Vocabulary.standard.reserved false (joined (scan Vocabulary.standard.reserved false
      "X509.TBS.Subject.CN=John  Smith!X509.TBS.Subject.C+")) =
      scan Vocabulary.standard.reserved false
        "X509.TBS.Subject.CN=John  Smith!X509.TBS.Subject.C+" :=
  scan_joined Vocabulary.solid_standard false
    "X509.TBS.Subject.CN=John  Smith!X509.TBS.Subject.C+"

end Token
end CertPolicy
