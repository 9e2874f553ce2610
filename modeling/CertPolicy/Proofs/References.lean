import CertPolicy.Dialect
import CertPolicy.Proofs.NodeCounts

/-!
# The fields of a policy in source order

A tree and its spelling name the same fields in the same order, whatever number of operands an
operation has. As long as siblings are rejected, a policy therefore refers to the fields that the
reference tokens of its text name, one after the other and as often as they are named.
-/

namespace CertPolicy
set_option autoImplicit false

def Mark.field? : Mark → Option Field
  | .field f => some f
  | .literal _ | .operator _ => none

namespace Expr

mutual

theorem filterMap_field?_spelling : (e : Expr) → e.spelling.filterMap Mark.field? = e.fields
  | .literal _ => rfl
  | .field _ => rfl
  | .operation operator es => by
    rw [spelling, fields_operation]
    exact filterMap_field?_spellingInfix operator es

theorem filterMap_field?_spellingInfix (operator : Operator) : (es : List Expr) →
    (spellingInfix operator es).filterMap Mark.field? = es.flatMap fields
  | [] => rfl
  | [e] => by
    rw [spellingInfix, List.filterMap_cons_none rfl, List.flatMap_singleton]
    exact filterMap_field?_spelling e
  | e :: f :: es => by
    rw [spellingInfix, List.filterMap_append, List.flatMap_cons, filterMap_field?_spelling e]
    exact congrArg (e.fields ++ ·) (filterMap_field?_spellingInfix operator (f :: es))

end

end Expr

theorem FieldTable.resolve_of_resolveRequired {t : FieldTable} {token : String} {f : Field}
    (h : t.resolveRequired token = .ok f) : t.resolve token = .ok (some f) := by
  obtain ⟨found, hfound, h⟩ := bind_eq_ok_iff.mp h
  cases found with
  | none => cases h
  | some g =>
    cases h
    exact hfound

/-- The tokens that refer to fields. -/
def references (tokens : List Token) : List Token :=
  tokens.filter (·.category = .reference)

theorem references_bareTokens (tokens : List Token) :
    references (bareTokens tokens) = references tokens := by
  rw [references, references, bareTokens, List.filter_filter]
  apply List.filter_congr
  intro t _
  cases t.category <;> rfl

section Marks
variable {v : Vocabulary} {t : Token} {m : Mark}

theorem Token.exists_field_of_mark? (ht : t.category = .reference) (h : t.mark? v = some m) :
    ∃ f, v.fields.resolve t.text = .ok (some f) ∧ m.field? = some f := by
  simp only [mark?, ht, Option.map_eq_some_iff] at h
  obtain ⟨f, hf, rfl⟩ := h
  refine ⟨f, FieldTable.resolve_of_resolveRequired ?_, rfl⟩
  cases hresolve : v.fields.resolveRequired t.text with
  | error cause =>
    rw [hresolve] at hf
    cases hf
  | ok g =>
    rw [hresolve] at hf
    exact congrArg Except.ok (Option.some.inj hf)

theorem Token.field?_eq_none_of_mark? (ht : t.category ≠ .reference)
    (h : t.mark? v = some m) : m.field? = none := by
  unfold mark? at h
  cases hk : t.category with
  | startLevel | endLevel => simp [hk] at h
  | operator =>
    simp only [hk, Option.map_eq_some_iff] at h
    obtain ⟨b, _, rfl⟩ := h
    rfl
  | literal =>
    simp only [hk, Option.some.injEq] at h
    subst h
    rfl
  | reference => exact absurd hk ht

theorem resolve_references_of_mapM {tokens : List Token} {ms : List Mark}
    (h : tokens.mapM (·.mark? v) = some ms) :
    (references tokens).map (fun t => v.fields.resolve t.text) =
      (ms.filterMap Mark.field?).map fun f => .ok (some f) := by
  induction tokens generalizing ms with
  | nil =>
    cases h
    rfl
  | cons t tokens ih =>
    simp only [List.mapM_cons, Option.bind_eq_bind, Option.bind_eq_some_iff, Option.pure_def,
      Option.some.injEq] at h
    obtain ⟨m, hm, ns, hns, rfl⟩ := h
    have hrest := ih hns
    rw [references] at hrest ⊢
    by_cases ht : t.category = .reference
    · obtain ⟨f, hf, hfield⟩ := Token.exists_field_of_mark? ht hm
      rw [List.filter_cons_of_pos (by simpa using ht), List.filterMap_cons_some hfield,
        List.map_cons, List.map_cons, hf, hrest]
    · rw [List.filter_cons_of_neg (by simpa using ht),
        List.filterMap_cons_none (Token.field?_eq_none_of_mark? ht hm), hrest]

end Marks

/-- Rejecting siblings, a policy has the fields that its reference tokens name. -/
theorem fields_of_build {v : Vocabulary} {o : Options} {tokens : List Token} {e : Expr}
    (hreject : o.siblings = .reject) (h : Expr.build v o tokens = .ok (some e)) :
    (references tokens).map (fun t => v.fields.resolve t.text) =
      e.fields.map fun f => .ok (some f) := by
  obtain ⟨ms, hms, hkeeps⟩ := keeps_of_build h
  rw [hreject] at hkeeps
  have hspelling : e.spelling = ms := by
    rw [← Expr.spellings_singleton]
    exact hkeeps
  have hbare : (bareTokens tokens).mapM (·.mark? v) = some ms := hms
  have hfields := resolve_references_of_mapM hbare
  rw [references_bareTokens, ← hspelling, Expr.filterMap_field?_spelling] at hfields
  exact hfields

namespace Dialect

/-- What a policy refers to is read off its text: the fields that its reference tokens name, in
their order. -/
theorem fields_of_parse {d : Dialect} {text : String} {e : Expr}
    (hreject : d.options.siblings = .reject) (h : d.parse text = .ok (some e)) :
    (references (d.tokenize text)).map (fun t => d.vocabulary.fields.resolve t.text) =
      e.fields.map fun f => .ok (some f) :=
  fields_of_build hreject h

/-- Two operators and two fields under short tokens. -/
def brief : Dialect where
  vocabulary := .ofTables ⟨[⟨"and", .logicalAnd, .binary⟩, ⟨"=", .equals, .binary⟩]⟩
    ⟨[⟨"alg", .signatureAlgorithm, true⟩], [⟨"CN", .subject, some (.name .subject)⟩], []⟩
  options := .strict

/-- The subject's common name is referred to three times, in two groups and below three
operations, and only once with the mark. -/
theorem fields_of_parse_groups :
    brief.parse "(CN = alg) and (CN+ = x and CN)" =
      .ok (some (.operation .logicalAnd
        [.operation .equals
          [.field (.name .subject false .commonName), .field (.outer .signatureAlgorithm)],
        .operation .equals
          [.field (.name .subject true .commonName),
          .operation .logicalAnd
            [.literal "x", .field (.name .subject false .commonName)]]])) ∧
    (references (brief.tokenize "(CN = alg) and (CN+ = x and CN)")).map
        (fun t => brief.vocabulary.fields.resolve t.text) =
      [.ok (some (.name .subject false .commonName)), .ok (some (.outer .signatureAlgorithm)),
        .ok (some (.name .subject true .commonName)),
        .ok (some (.name .subject false .commonName))] := by
  have h : brief.parse "(CN = alg) and (CN+ = x and CN)" =
      .ok (some (.operation .logicalAnd
        [.operation .equals
          [.field (.name .subject false .commonName), .field (.outer .signatureAlgorithm)],
        .operation .equals
          [.field (.name .subject true .commonName),
          .operation .logicalAnd
            [.literal "x", .field (.name .subject false .commonName)]]])) := by
    decide +kernel
  exact ⟨h, fields_of_parse rfl h⟩

end Dialect
end CertPolicy
