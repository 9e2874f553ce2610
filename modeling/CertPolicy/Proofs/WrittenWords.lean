import CertPolicy.Proofs.Respacing

/-!
# Words that can be written

Not every reserved word can be written: a scanner looks one character ahead only, so that it loses
a word on the way to which a shorter one comes up and is not held. A word is read as itself exactly
if every beginning of it with a word in it is a word that is held. In a stepwise vocabulary, such
as the standard one, this is true of all words.
-/

namespace CertPolicy
set_option autoImplicit false

namespace Reserved
variable {r : Reserved} {text : List Char} {c : Char} {k : Category}

/-- Once a word has come up in a growing text, all that it grows through are words, and each of
them is held for the next character. -/
def HeldThrough (r : Reserved) (text : List Char) : Prop :=
  ∀ p, p <+: text → p ≠ text → (∃ w ∈ r.words, w.text <:+: p) →
    ∃ k, r.category? p = some k ∧ k.isHoldable = true

theorem heldThrough_concat : r.HeldThrough (text ++ [c]) ↔ r.HeldThrough text ∧
    ((∃ w ∈ r.words, w.text <:+: text) → ∃ k, r.category? text = some k ∧ k.isHoldable = true) := by
  have hne : text ≠ text ++ [c] := by simp
  constructor
  · intro h
    refine ⟨?_, h text (List.prefix_append text [c]) hne⟩
    intro p hp _
    apply h p (hp.trans (List.prefix_append text [c]))
    rintro rfl
    have hle := hp.length_le
    rw [List.length_append, List.length_singleton] at hle
    omega
  · rintro ⟨h, hlast⟩ p hp hpne
    rcases List.prefix_concat_iff.mp hp with heq | hp
    · exact absurd heq hpne
    · by_cases heq : p = text
      · rw [heq]
        exact hlast
      · exact h p hp heq

/-- A scanner that begins in front of a word collects it if all that it has to hold is held. -/
theorem collects_iff (hne : ∀ w ∈ r.words, w.text ≠ []) :
    r.Collects text k ↔ r.category? text = some k ∧ r.HeldThrough text := by
  have hsearch (s : List Char) : r.find? s = none ↔ ¬ ∃ w ∈ r.words, w.text <:+: s := by
    rw [find?_eq_none_iff]
    simp
  constructor
  · intro h
    refine ⟨h.category?_eq, ?_⟩
    induction h with
    | @first text c k hnone hk =>
      have hnot := (hsearch text).mp hnone
      refine heldThrough_concat.mpr ⟨?_, fun hin => absurd hin hnot⟩
      rintro p hp _ ⟨w, hw, hin⟩
      exact absurd ⟨w, hw, hin.trans hp.isInfix⟩ hnot
    | @longer text c k k' h hhold hk ih =>
      exact heldThrough_concat.mpr ⟨ih, fun _ => ⟨k, h.category?_eq, hhold⟩⟩
  · rintro ⟨hk, hheld⟩
    induction text using List.reverseRecOn generalizing k with
    | nil =>
      rw [category?_nil hne] at hk
      cases hk
    | append_singleton text c ih =>
      obtain ⟨hheld, hlast⟩ := heldThrough_concat.mp hheld
      cases hnone : r.find? text with
      | none => exact .first hnone hk
      | some o =>
        have hin : ∃ w ∈ r.words, w.text <:+: text := by
          by_contra hnot
          rw [(hsearch text).mpr hnot] at hnone
          cases hnone
        obtain ⟨k', hk', hhold⟩ := hlast hin
        exact .longer (ih hk' hheld) hhold hk

/-- What begins with a word on the way to a longer one is a word. -/
theorem Stepwise.exists_word_append (h : r.Stepwise) {v : Word} (hv : v ∈ r.words)
    {u : List Char} (hu : ∃ w ∈ r.words, w.text = u) {b s : List Char}
    (hvtext : v.text = u ++ b ++ s) : ∃ w ∈ r.words, w.text = u ++ b := by
  induction b generalizing u with
  | nil => simpa using hu
  | cons c b ih =>
    obtain ⟨w, hw, rfl⟩ := hu
    rw [List.append_assoc, List.cons_append] at hvtext
    have hnext := h.gradual w hw v hv c (b ++ s) hvtext
    rw [← List.singleton_append, ← List.append_assoc]
    apply ih hnext
    rw [hvtext]
    simp

/-- All that a word grows through in a stepwise vocabulary is held. -/
theorem Stepwise.heldThrough (h : r.Stepwise) {v : Word} (hv : v ∈ r.words) :
    r.HeldThrough v.text := by
  rintro p ⟨s, hs⟩ hne ⟨u, hu, a, b, rfl⟩
  have hvtext : v.text = a ++ (u.text ++ (b ++ s)) := by
    rw [← hs]
    simp only [List.append_assoc]
  -- The word inside `p` does not end `v`, so it begins `v`.
  rcases h.apart u hu v hv a (b ++ s) hvtext with rfl | hnil
  · rw [List.nil_append] at hs hne ⊢
    obtain ⟨w, hw, hwtext⟩ := h.exists_word_append hv ⟨u, hu, rfl⟩ hs.symm
    cases hk : r.category? (u.text ++ b) with
    | none => exact absurd hwtext (category?_eq_none_iff.mp hk w hw)
    | some k =>
      refine ⟨k, rfl, ?_⟩
      obtain ⟨w', hw', hwtext', rfl⟩ := exists_of_category? hk
      by_contra hhold
      rw [Bool.not_eq_true] at hhold
      have hpre : w'.text <+: v.text := by
        rw [hwtext']
        exact ⟨s, hs⟩
      have heq := h.single w' hw' hhold v hv (Or.inl hpre)
      exact hne (hwtext'.symm.trans heq.symm)
  · obtain ⟨rfl, rfl⟩ := List.append_eq_nil_iff.mp hnil
    exact absurd (by simpa using hs) hne

end Reserved

namespace Token
variable {v : Vocabulary} {splitLiterals : Bool} {text : String} {k : Category}

theorem Scanned.collects {t : Token} (h : t.Scanned v.reserved splitLiterals)
    (hk : t.category ≠ .literal) : v.reserved.Collects t.text.toList t.category := by
  cases h with
  | word h =>
    rw [ofChars, String.toList_ofList]
    exact h
  | literal => exact absurd rfl hk

theorem scan_of_collects (hv : v.Solid) (h : v.reserved.Collects text.toList k)
    (hnul : '\x00' ∉ text.toList) (splitLiterals : Bool) :
    scan v.reserved splitLiterals text = [⟨text, k⟩] := by
  have hscanned : Scanned v.reserved splitLiterals ⟨text, k⟩ := by
    have hword : Scanned v.reserved splitLiterals (ofChars text.toList k) := .word h
    rwa [ofChars, String.ofList_toList] at hword
  have htext : joined [⟨text, k⟩] = text := by
    rw [← String.toList_inj, toList_joined_cons]
    exact List.append_nil _
  have hscan : scan v.reserved splitLiterals (joined [⟨text, k⟩]) = [⟨text, k⟩] := by
    apply scan_joined_of_scanned hv
    · simpa using hscanned
    · exact fun _ => List.isChain_singleton _
    · simpa using hnul
  rwa [htext] at hscan

/-- A reserved word is read as itself exactly if it has no NUL character and all that it grows
through is held once a word has come up. -/
theorem scan_word_iff (hv : v.Solid) (hk : v.reserved.category? text.toList = some k)
    (splitLiterals : Bool) :
    scan v.reserved splitLiterals text = [⟨text, k⟩] ↔
      '\x00' ∉ text.toList ∧ v.reserved.HeldThrough text.toList := by
  constructor
  · intro h
    have hmem : ⟨text, k⟩ ∈ scan v.reserved splitLiterals text := by
      rw [h]
      exact List.mem_singleton_self _
    have hcollects := (scanned_of_mem_scan hv hmem).collects (Vocabulary.category?_ne_literal hk)
    exact ⟨nul_notMem_of_mem_scan hmem, ((Reserved.collects_iff hv.nonempty).mp hcollects).2⟩
  · rintro ⟨hnul, hheld⟩
    exact scan_of_collects hv ((Reserved.collects_iff hv.nonempty).mpr ⟨hk, hheld⟩) hnul _

/-- `{?}!` grows through `{?}`, which is held, and no word comes up before that. -/
theorem scan_word_iff_notContains :
    Vocabulary.standard.reserved.category? "\x7b?\x7d!".toList = some .operator ∧
    (scan Vocabulary.standard.reserved false "\x7b?\x7d!" = [⟨"\x7b?\x7d!", .operator⟩] ↔
      '\x00' ∉ "\x7b?\x7d!".toList ∧
        Vocabulary.standard.reserved.HeldThrough "\x7b?\x7d!".toList) := by
  have hk : Vocabulary.standard.reserved.category? "\x7b?\x7d!".toList = some .operator := by
    rw [Vocabulary.category?_reserved]
    decide +kernel
  exact ⟨hk, scan_word_iff Vocabulary.solid_standard hk false⟩

/-- Where `a` and `abc` are words and `ab` is none, `abc` is read as `a` and a literal. -/
theorem word_not_read_back :
    ¬ ∀ (v : Vocabulary) (text : String) (k : Category) (splitLiterals : Bool), v.Solid →
      v.reserved.category? text.toList = some k →
      scan v.reserved splitLiterals text = [⟨text, k⟩] := by
  intro h
  have hblankless : ((Reserved.texts ⟨[⟨"a", .equals, .binary⟩, ⟨"abc", .less, .binary⟩]⟩
      .empty).all fun t => !t.isEmpty && t.all fun c => !isBlank c) = true := by
    decide +kernel
  have hv : (Vocabulary.ofTables ⟨[⟨"a", .equals, .binary⟩, ⟨"abc", .less, .binary⟩]⟩
      .empty).Solid := by
    refine Vocabulary.solid_iff.mpr fun t ht => ?_
    simpa using List.all_eq_true.mp hblankless t ht
  have hscan := h _ "abc" .operator true hv (by decide +kernel)
  revert hscan
  decide +kernel

theorem nulless_standardTexts :
    (Reserved.standardTexts.all fun t => !t.contains '\x00') = true := by
  decide +kernel

/-- Every word of the standard vocabulary is read as itself. -/
theorem scan_standard_word (hk : Vocabulary.standard.reserved.category? text.toList = some k)
    (splitLiterals : Bool) :
    scan Vocabulary.standard.reserved splitLiterals text = [⟨text, k⟩] := by
  have hv := Vocabulary.solid_standard
  obtain ⟨w, hw, hwtext, _⟩ := Reserved.exists_of_category? hk
  have hheld := Reserved.stepwise_standard.heldThrough hw
  have hmem : w.text ∈ Reserved.texts .standard .standard := Reserved.text_mem_texts hw
  rw [Reserved.texts_standard] at hmem
  have hnul := List.all_eq_true.mp nulless_standardTexts w.text hmem
  rw [hwtext] at hheld hnul
  exact scan_of_collects hv ((Reserved.collects_iff hv.nonempty).mpr ⟨hk, hheld⟩)
    (by simpa using hnul) splitLiterals

end Token
end CertPolicy
