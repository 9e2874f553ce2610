import CertPolicy.Proofs.SolidWords
import CertPolicy.Proofs.StepwiseCheck

/-!
# Scanning with the standard vocabulary

The standard words are stepwise. Their texts are taken apart as their tokens are put together,
so that the check reads each piece once.
-/

namespace CertPolicy
set_option autoImplicit false

def TbsSection.letters (s : TbsSection) : List Char :=
  OuterField.tbs.token.toList ++ '.' :: s.segment.toList

theorem TbsSection.toList_token (s : TbsSection) : s.token.toList = s.letters := by
  rw [token, String.toList_append, String.toList_append, letters, List.append_assoc]
  rfl

def TbsValue.letters : TbsValue → List Char
  | .subjectPublicKeyAlgorithm => TbsSection.letters .subjectPublicKeyInfo ++ ".Algorithm".toList
  | .subjectPublicKeySize => TbsSection.letters .subjectPublicKeyInfo ++ ".Size".toList
  | f => f.container.letters

theorem TbsValue.toList_token (f : TbsValue) : f.token.toList = f.letters := by
  cases f with
  | subjectPublicKeyAlgorithm | subjectPublicKeySize =>
    rw [token, String.toList_append, TbsSection.toList_token]
    rfl
  | _ => exact TbsSection.toList_token _

def NameAttribute.letters (party : Party) (a : NameAttribute) : List Char :=
  party.container.letters ++ '.' :: a.shortName.toList

theorem NameAttribute.toList_token (party : Party) (a : NameAttribute) :
    (a.token party).toList = a.letters party := by
  rw [token, String.toList_append, String.toList_append, TbsSection.toList_token, letters,
    List.append_assoc]
  rfl

def Extension.letters (e : Extension) : List Char :=
  TbsSection.extensions.letters ++ '.' :: e.path.toList

theorem Extension.toList_token (e : Extension) : e.token.toList = e.letters := by
  rw [token, String.toList_append, String.toList_append, TbsSection.toList_token, letters,
    List.append_assoc]
  rfl

namespace Reserved

def standardTexts : List (List Char) :=
  [['('], [')']] ++ Tagged.all.map (fun o : Operator => o.token.toList) ++
    ([OuterField.signature.token.toList, OuterField.signatureAlgorithm.token.toList] ++
      (Tagged.all.map TbsValue.letters ++ Tagged.all.flatMap fun p : Party =>
        Tagged.all.flatMap fun a : NameAttribute => [a.letters p, a.letters p ++ ['+']]) ++
      Tagged.all.flatMap fun e : Extension => [e.letters, e.letters ++ ['+']])

theorem texts_standard : texts .standard .standard = standardTexts := by
  have hoperators : OperatorTable.standard.bindings.map (·.token) =
      Tagged.all.map fun o : Operator => o.token := rfl
  have hreferences : FieldTable.standard.referenceTokens =
      [OuterField.signature.token, OuterField.signatureAlgorithm.token] ++
        (Tagged.all.map TbsValue.token ++ Tagged.all.flatMap fun p : Party =>
          Tagged.all.flatMap fun a : NameAttribute => [a.token p, a.token p ++ "+"]) ++
        Tagged.all.flatMap fun e : Extension => [e.token, e.token ++ "+"] := rfl
  have htokens : OperatorTable.standard.bindings.map (·.token.toList) =
      (OperatorTable.standard.bindings.map (·.token)).map String.toList := by
    rw [List.map_map]
    rfl
  have hmark : "+".toList = ['+'] := rfl
  rw [texts, htokens, hoperators, hreferences, standardTexts]
  simp only [List.map_append, List.map_map, List.map_flatMap, List.map_cons, List.map_nil,
    Function.comp_def, String.toList_append, TbsValue.toList_token, NameAttribute.toList_token,
    Extension.toList_token, hmark]

/-- The characters inside standard words that no standard word begins with, as closed intervals
of code points: digits, letters but `X`, `+` and `.`. -/
def innerRanges : List (Nat × Nat) :=
  [(0x2B, 0x2B), (0x2E, 0x2E), (0x30, 0x39), (0x41, 0x57), (0x59, 0x5A), (0x61, 0x7A)]

def isInner (c : Char) : Bool :=
  innerRanges.any fun r => r.1 ≤ c.toNat && c.toNat ≤ r.2

theorem check_standardTexts : checkStepwise isInner 60 standardTexts = true := by
  decide +kernel

theorem blankless_standardTexts :
    (standardTexts.all fun t => !t.isEmpty && t.all fun c => !isBlank c) = true := by
  decide +kernel

theorem stepwise_standard : Vocabulary.standard.reserved.Stepwise := by
  have hcheck : checkStepwise isInner 60 (texts .standard .standard) = true := by
    rw [texts_standard]
    exact check_standardTexts
  exact stepwise_of_check hcheck

end Reserved

theorem Vocabulary.solid_standard : Vocabulary.standard.Solid := by
  have htexts : Reserved.texts standard.operators standard.fields = Reserved.standardTexts :=
    Reserved.texts_standard
  rw [solid_iff, htexts]
  intro t ht
  simpa using List.all_eq_true.mp Reserved.blankless_standardTexts t ht

/-- A text without blanks and NUL characters has the tokens of longest match, but for the
characters that are tokens because a held word ended in front of them. It has just those where
no such character begins a longer word. -/
theorem scan_standard {text : String} (splitLiterals : Bool)
    (hblank : ∀ c ∈ text.toList, isBlank c = false) (hnul : '\x00' ∉ text.toList) :
    Token.scan Vocabulary.standard.reserved splitLiterals text =
        Vocabulary.standard.reserved.eager false text.toList ∧
      (Token.scan Vocabulary.standard.reserved splitLiterals text =
          Vocabulary.standard.reserved.longest text.toList ↔
        Vocabulary.standard.reserved.Unbroken false
          (Vocabulary.standard.reserved.longest text.toList)) := by
  have hstepwise := Reserved.stepwise_standard
  have hscan := Token.scan_eq_eager hstepwise splitLiterals hblank hnul
  refine ⟨hscan, ?_⟩
  rw [hscan]
  exact Reserved.eager_eq_longest_iff hstepwise.nonempty false text.toList

theorem scan_standard_negations :
    Token.scan Vocabulary.standard.reserved true "!!!=a" =
        Vocabulary.standard.reserved.eager false "!!!=a".toList ∧
      (Token.scan Vocabulary.standard.reserved true "!!!=a" =
          Vocabulary.standard.reserved.longest "!!!=a".toList ↔
        Vocabulary.standard.reserved.Unbroken false
          (Vocabulary.standard.reserved.longest "!!!=a".toList)) := by
  refine scan_standard true ?_ (by decide)
  rw [← List.forall_iff_forall_mem]
  decide +kernel

/-- The second `!` of `!!=a` is a token by itself, although `!=` is a word. -/
theorem scan_standard_ne_longest :
    ¬ ∀ (text : String) (splitLiterals : Bool), (∀ c ∈ text.toList, isBlank c = false) →
      '\x00' ∉ text.toList → Token.scan Vocabulary.standard.reserved splitLiterals text =
        Vocabulary.standard.reserved.longest text.toList := by
  intro h
  have hstepwise := Reserved.stepwise_standard
  have hnot : Vocabulary.standard.reserved.category? ['!'] = some .operator := by
    rw [Vocabulary.category?_reserved]
    decide +kernel
  have hnotNot : Vocabulary.standard.reserved.category? ['!', '!'] = none := by
    rw [Vocabulary.category?_reserved]
    decide +kernel
  have hne : Vocabulary.standard.reserved.category? ['!', '='] = some .operator := by
    rw [Vocabulary.category?_reserved]
    decide +kernel
  have hneA : Vocabulary.standard.reserved.category? ['!', '=', 'a'] = none := by
    rw [Vocabulary.category?_reserved]
    decide +kernel
  have hfirst : ∀ c s, ['!', '=', 'a'] = c :: s →
      Vocabulary.standard.reserved.category? (['!'] ++ [c]) = none := by
    rintro _ _ ⟨⟩
    exact hnotNot
  have hsecond : ∀ c s, ['a'] = c :: s →
      Vocabulary.standard.reserved.category? (['!', '='] ++ [c]) = none := by
    rintro _ _ ⟨⟩
    exact hneA
  have heager : Vocabulary.standard.reserved.eager false ['!', '!', '=', 'a'] =
      .ofChars ['!'] .operator :: .ofChars ['!'] .operator :: _ :=
    (hstepwise.eager_word_append hnot hfirst).trans
      (congrArg _ (Reserved.eager_of_alone? (Reserved.alone?_cons_eq_some_iff.mpr ⟨rfl, hnot⟩)))
  have hlongest : Vocabulary.standard.reserved.longest ['!', '!', '=', 'a'] =
      .ofChars ['!'] .operator :: .ofChars ['!', '='] .operator :: _ :=
    (hstepwise.longest_word_append hnot hfirst).trans
      (congrArg _ (hstepwise.longest_word_append hne hsecond))
  have hblank : ∀ c ∈ "!!=a".toList, isBlank c = false := by
    rw [← List.forall_iff_forall_mem]
    decide +kernel
  have hnul : '\x00' ∉ "!!=a".toList := by decide
  have hscan := h "!!=a" true hblank hnul
  rw [Token.scan_eq_eager hstepwise true hblank hnul] at hscan
  have heq := heager.symm.trans (hscan.trans hlongest)
  have htokens := (List.cons.inj (List.cons.inj heq).2).1
  rw [Token.ofChars_eq_iff] at htokens
  exact absurd htokens.1 (by decide)

end CertPolicy
