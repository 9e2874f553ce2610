import CertPolicy.Dialect
import CertPolicy.Proofs.Machine.Errors
import CertPolicy.Proofs.ScannedTokens

/-!
# Every name that is read is known

A word is read as an operator only where the table of operators binds it, and as a reference only
where the table of fields lists it, with or without its mark. As long as the listed tokens do not
end in a mark of their own, looking up a reference takes away no more than what listing it has
added. A policy text can thus fail for its grammar, or for a field that is not implemented or
ends in no attribute, but not for a name that nobody knows.
-/

namespace CertPolicy
set_option autoImplicit false

/-- What is looked up by the key of an entry is found, if perhaps in another entry. -/
theorem exists_find?_of_mem {α : Type} {entries : List α} {e : α} (key : α → String)
    (he : e ∈ entries) : ∃ found, entries.find? (key · == key e) = some found :=
  Option.isSome_iff_exists.mp (List.find?_isSome.mpr ⟨e, he, beq_self_eq_true (key e)⟩)

namespace FieldTable
variable {t : FieldTable} {token : String}

/-- One of the three lists has the token, the last two without regard to its mark. -/
def Knows (t : FieldTable) (token : String) : Prop :=
  (∃ e, t.findOuter? token = some e) ∨ (∃ e, t.findTbs? (splitMark token).1 = some e) ∨
    ∃ e, t.findExtension? (splitMark token).1 = some e

/-- A lookup finds nothing just where the token is not known, and makes no error of that. -/
structure Lookup.Tells (l : Lookup) (known : Prop) : Prop where
  eq_none_iff : l = .ok none ↔ ¬ known
  ne_unresolved : ∀ s, l ≠ .error (.unresolved s)

theorem Lookup.Tells.known_of_ne {l : Lookup} {known : Prop} (h : l.Tells known)
    (hne : l ≠ .ok none) : known := by
  by_contra hnot
  exact hne (h.eq_none_iff.mpr hnot)

theorem tells_outer :
    Lookup.Tells (t.resolveOuter token) (∃ e, t.findOuter? token = some e) := by
  unfold resolveOuter
  cases t.findOuter? token with
  | none => exact ⟨by simp, nofun⟩
  | some e =>
    simp only
    split
    · exact ⟨by simp, nofun⟩
    · exact ⟨by simp, nofun⟩

theorem tells_tbs :
    Lookup.Tells (t.resolveTbs token) (∃ e, t.findTbs? (splitMark token).1 = some e) := by
  unfold resolveTbs
  simp only
  cases t.findTbs? (splitMark token).1 with
  | none => exact ⟨by simp, nofun⟩
  | some e =>
    simp only
    cases e.meaning with
    | none => exact ⟨by simp, nofun⟩
    | some meaning =>
      cases meaning with
      | value f => exact ⟨by simp, nofun⟩
      | name party =>
        simp only
        cases NameAttribute.ofShortName (lastSegment (splitMark token).1) with
        | ok a => exact ⟨by simp, nofun⟩
        | error cause => exact ⟨by simp, nofun⟩

theorem tells_extension :
    Lookup.Tells (t.resolveExtension token)
      (∃ e, t.findExtension? (splitMark token).1 = some e) := by
  unfold resolveExtension
  simp only
  cases t.findExtension? (splitMark token).1 with
  | none => exact ⟨by simp, nofun⟩
  | some e =>
    simp only
    split
    · exact ⟨by simp, nofun⟩
    · exact ⟨by simp, nofun⟩

/-- What one lookup does not know is left to the next. -/
theorem Lookup.Tells.orElse {l l' : Lookup} {known known' : Prop} (h : l.Tells known)
    (h' : l'.Tells known') :
    Lookup.Tells (do
      match ← l with
      | some f => return some f
      | none => l') (known ∨ known') := by
  cases l with
  | error e =>
    have hknown : known := h.known_of_ne nofun
    rw [error_bind]
    refine ⟨?_, h.ne_unresolved⟩
    simp [hknown]
  | ok found =>
    rw [ok_bind]
    cases found with
    | none =>
      have hnot : ¬ known := h.eq_none_iff.mp rfl
      refine ⟨?_, h'.ne_unresolved⟩
      rw [or_iff_right hnot]
      exact h'.eq_none_iff
    | some f =>
      have hknown : known := h.known_of_ne nofun
      refine ⟨?_, nofun⟩
      simp [hknown]

theorem tells_resolve : Lookup.Tells (t.resolve token) (t.Knows token) :=
  tells_outer.orElse (tells_tbs.orElse tells_extension)

/-- Only a token that no list has is reported as unresolved. -/
theorem not_knows_of_unresolved {s : String}
    (h : t.resolveRequired token = .error (.unresolved s)) : ¬ t.Knows token := by
  rcases bind_eq_error_iff.mp h with h | ⟨found, hfound, h⟩
  · exact absurd h (tells_resolve.ne_unresolved s)
  · cases found with
    | none => exact tells_resolve.eq_none_iff.mp hfound
    | some f => cases h

/-- No token is listed with a mark that a lookup takes off. -/
structure Unmarked (t : FieldTable) : Prop where
  tbs : ∀ e ∈ t.tbs, e.token.toList.getLast? ≠ some '+'
  extensions : ∀ e ∈ t.extensions, e.token.toList.getLast? ≠ some '+'

theorem splitMark_listed {name : String} (hname : name.toList.getLast? ≠ some '+')
    (h : token = name ∨ token = name ++ "+") : (splitMark token).1 = name := by
  rcases h with rfl | rfl
  · rw [splitMark_of_getLast?_ne hname]
  · rw [splitMark_append]

/-- Every token that a policy text can spell is known. -/
theorem Unmarked.knows (h : t.Unmarked) (htoken : token ∈ t.referenceTokens) : t.Knows token := by
  rw [referenceTokens, List.mem_append, List.mem_append] at htoken
  rcases htoken with (htoken | htoken) | htoken
  · obtain ⟨e, he, rfl⟩ := List.mem_map.mp htoken
    have hlisted : e ∈ t.outer := (List.mem_filter.mp he).1
    exact Or.inl (exists_find?_of_mem OuterListing.token hlisted)
  · -- Some of these entries are listed a second time with a mark, which a lookup takes off.
    obtain ⟨e, he, hmem⟩ := List.mem_flatMap.mp htoken
    have hlisted : e ∈ t.tbs := (List.mem_filter.mp he).1
    have hname : token = e.token ∨ token = e.token ++ "+" := by
      split at hmem
      · exact List.mem_pair.mp hmem
      · exact Or.inl (List.mem_singleton.mp hmem)
    right; left
    rw [splitMark_listed (h.tbs e hlisted) hname]
    exact exists_find?_of_mem TbsListing.token hlisted
  · obtain ⟨e, he, hmem⟩ := List.mem_flatMap.mp htoken
    right; right
    rw [splitMark_listed (h.extensions e he) (List.mem_pair.mp hmem)]
    exact exists_find?_of_mem ExtensionListing.token he

theorem unmarked_standard : standard.Unmarked := by
  constructor
  · intro e he
    rcases List.mem_append.mp he with he | he
    · obtain ⟨f, _, rfl⟩ := List.mem_map.mp he
      rw [TbsValue.toList_token]
      cases f <;> decide
    · obtain ⟨party, _, he⟩ := List.mem_flatMap.mp he
      obtain ⟨a, _, rfl⟩ := List.mem_map.mp he
      rw [NameAttribute.toList_token, NameAttribute.letters, List.getLast?_append_cons]
      cases a <;> decide
  · intro e he
    obtain ⟨x, _, rfl⟩ := List.mem_map.mp he
    rw [Extension.toList_token, Extension.letters, List.getLast?_append_cons]
    cases x <;> decide

end FieldTable

namespace Vocabulary
variable {v : Vocabulary} {token : String}

theorem exists_binding_of_category? (h : v.reserved.category? token.toList = some .operator) :
    ∃ b, v.operators.find? token = some b := by
  rw [category?_reserved, String.ofList_toList] at h
  split at h
  · cases h
  · split at h
    · rename_i hbound
      obtain ⟨b, hb, rfl⟩ := List.mem_map.mp hbound
      exact exists_find?_of_mem Binding.token hb
    · obtain ⟨w, hw, _, hoperator⟩ := Reserved.exists_of_category? h
      rcases Reserved.mem_levels_iff.mp hw with rfl | rfl
      · cases hoperator
      · cases hoperator

theorem mem_referenceTokens_of_category?
    (h : v.reserved.category? token.toList = some .reference) :
    token ∈ v.fields.referenceTokens := by
  rw [category?_reserved, String.ofList_toList] at h
  split at h
  · assumption
  · split at h
    · cases h
    · obtain ⟨w, hw, _, hreference⟩ := Reserved.exists_of_category? h
      rcases Reserved.mem_levels_iff.mp hw with rfl | rfl
      · cases hreference
      · cases hreference

end Vocabulary

namespace Dialect

/-- Every operator of a text is bound and every reference in it is known, so that parsing the text
fails neither at an unknown operator nor at an unresolved reference. -/
theorem names_known (d : Dialect) (hv : d.vocabulary.Solid)
    (hmark : d.vocabulary.fields.Unmarked) (text : String) :
    (∀ t ∈ d.tokenize text,
      (t.category = .operator → ∃ b, d.vocabulary.operators.find? t.text = some b) ∧
      (t.category = .reference → d.vocabulary.fields.Knows t.text)) ∧
    (∀ token, d.parse text ≠ .error (.unknownOperator token)) ∧
    ∀ token, d.parse text ≠ .error (.resolution (.unresolved token)) := by
  have hcategory : ∀ t ∈ d.tokenize text, t.category ≠ .literal →
      d.vocabulary.reserved.category? t.text.toList = some t.category :=
    fun t ht => ((Token.scanned_of_mem_scan hv ht).wellFormed hv).category?_eq
  have hoperator : ∀ t ∈ d.tokenize text, t.category = .operator →
      ∃ b, d.vocabulary.operators.find? t.text = some b := by
    intro t ht hk
    have hlookup := hcategory t ht (by rw [hk]; exact nofun)
    rw [hk] at hlookup
    exact Vocabulary.exists_binding_of_category? hlookup
  have hreference : ∀ t ∈ d.tokenize text, t.category = .reference →
      d.vocabulary.fields.Knows t.text := by
    intro t ht hk
    have hlookup := hcategory t ht (by rw [hk]; exact nofun)
    rw [hk] at hlookup
    exact hmark.knows (Vocabulary.mem_referenceTokens_of_category? hlookup)
  refine ⟨fun t ht => ⟨hoperator t ht, hreference t ht⟩, ?_, ?_⟩
  · intro token h
    rcases grammatical_or_unbound_of_build h with ⟨_, hgrammar⟩ | ⟨t, ht, hunbound⟩
    · cases hgrammar
    · cases hunbound with
      | operator hk hb =>
        obtain ⟨b, hbound⟩ := hoperator t ht hk
        rw [hb] at hbound
        cases hbound
  · intro token h
    rcases grammatical_or_unbound_of_build h with ⟨_, hgrammar⟩ | ⟨t, ht, hunbound⟩
    · cases hgrammar
    · cases hunbound with
      | reference hk hf => exact FieldTable.not_knows_of_unresolved hf (hreference t ht hk)

/-- The text has a marked reference, an operator that begins a longer one, and an unfinished
reference, which is a literal. -/
theorem names_known_subject :
    (∀ t ∈ standard.tokenize "X509.TBS.Subject.CN+ != a!X509.TBS.Sub",
      (t.category = .operator → ∃ b, standard.vocabulary.operators.find? t.text = some b) ∧
      (t.category = .reference → standard.vocabulary.fields.Knows t.text)) ∧
    (∀ token, standard.parse "X509.TBS.Subject.CN+ != a!X509.TBS.Sub" ≠
      .error (.unknownOperator token)) ∧
    ∀ token, standard.parse "X509.TBS.Subject.CN+ != a!X509.TBS.Sub" ≠
      .error (.resolution (.unresolved token)) :=
  names_known standard Vocabulary.solid_standard FieldTable.unmarked_standard
    "X509.TBS.Subject.CN+ != a!X509.TBS.Sub"

end Dialect
end CertPolicy
