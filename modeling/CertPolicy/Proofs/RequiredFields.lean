import CertPolicy.Proofs.Precedence

/-!
# Required fields

A field that may be absent from a certificate is required just if its token ends in a mark. A mark
is lost in one case only: where the token without it stands for a value of the signed part, which is
read as that value even if the marked token is listed for the sake of another field. In the standard
table no token is listed so.
-/

namespace CertPolicy
set_option autoImplicit false

def Marked (token : String) : Prop :=
  token.toList.getLast? = some '+'

theorem splitMark_snd_iff {token : String} : (splitMark token).2 = true ↔ Marked token := by
  unfold splitMark Marked
  split
  · rename_i h
    exact iff_of_true rfl h
  · rename_i h
    exact iff_of_false Bool.false_ne_true h

theorem Marked.splitMark_fst_append {token : String} (h : Marked token) :
    (splitMark token).1 ++ "+" = token := by
  obtain ⟨s, hs⟩ := List.getLast?_eq_some_iff.mp h
  have htoken : token = String.ofList s ++ "+" := by
    rw [← String.toList_inj, hs, String.toList_append, String.toList_ofList]
    rfl
  rw [htoken, splitMark_append]

namespace FieldTable
variable {t : FieldTable} {token : String} {f : Field} {x : TbsValue}

/-- The field that a token stands for, by the list that decides on it. -/
inductive Denotes (t : FieldTable) (token : String) : Field → Prop
  | outer {e : OuterListing} (h : t.Decides token .outer)
      (he : t.findOuter? token = some e) : Denotes t token (.outer e.field)
  | value {e : TbsListing} {x : TbsValue} (h : t.Decides token .tbs)
      (he : t.findTbs? (splitMark token).1 = some e) (hx : e.meaning = some (.value x)) :
      Denotes t token (.tbs x)
  | name {e : TbsListing} {party : Party} {a : NameAttribute} (h : t.Decides token .tbs)
      (he : t.findTbs? (splitMark token).1 = some e) (hparty : e.meaning = some (.name party))
      (ha : NameAttribute.ofShortName (lastSegment (splitMark token).1) = .ok a) :
      Denotes t token (.name party (splitMark token).2 a)
  | extension {e : ExtensionListing} (h : t.Decides token .extension)
      (he : t.findExtension? (splitMark token).1 = some e) :
      Denotes t token (.extension (splitMark token).2 e.value)

theorem resolveOuter_eq_ok_some_iff : t.resolveOuter token = .ok (some f) ↔
    ∃ e, t.findOuter? token = some e ∧ e.implemented = true ∧ .outer e.field = f := by
  unfold resolveOuter
  cases t.findOuter? token with
  | none => simp
  | some e => cases h : e.implemented <;> simp [h]

theorem resolveTbs_eq_ok_some_iff : t.resolveTbs token = .ok (some f) ↔
    ∃ e, t.findTbs? (splitMark token).1 = some e ∧
      ((∃ x, e.meaning = some (.value x) ∧ .tbs x = f) ∨
        ∃ party a, e.meaning = some (.name party) ∧
          NameAttribute.ofShortName (lastSegment (splitMark token).1) = .ok a ∧
          .name party (splitMark token).2 a = f) := by
  unfold resolveTbs
  simp only
  cases t.findTbs? (splitMark token).1 with
  | none => simp
  | some e =>
    cases hmeaning : e.meaning with
    | none => simp [hmeaning]
    | some meaning =>
      cases meaning with
      | value x => simp [hmeaning]
      | name party =>
        cases NameAttribute.ofShortName (lastSegment (splitMark token).1) with
        | error cause => simp [hmeaning]
        | ok a => simp [hmeaning]

theorem resolveExtension_eq_ok_some_iff : t.resolveExtension token = .ok (some f) ↔
    ∃ e, t.findExtension? (splitMark token).1 = some e ∧ e.implemented = true ∧
      .extension (splitMark token).2 e.value = f := by
  unfold resolveExtension
  simp only
  cases t.findExtension? (splitMark token).1 with
  | none => simp
  | some e => cases h : e.implemented <;> simp [h]

theorem denotes_of_resolve (h : t.resolve token = .ok (some f)) : t.Denotes token f := by
  have hknown : t.resolve token ≠ .ok none := by
    rw [h]
    exact nofun
  obtain ⟨k, hk⟩ := exists_decides hknown
  rw [hk.resolve_eq] at h
  cases k with
  | outer =>
    obtain ⟨e, he, _, rfl⟩ := resolveOuter_eq_ok_some_iff.mp h
    exact .outer hk he
  | tbs =>
    obtain ⟨e, he, ⟨x, hx, rfl⟩ | ⟨party, a, hparty, ha, rfl⟩⟩ := resolveTbs_eq_ok_some_iff.mp h
    · exact .value hk he hx
    · exact .name hk he hparty ha
  | extension =>
    obtain ⟨e, he, _, rfl⟩ := resolveExtension_eq_ok_some_iff.mp h
    exact .extension hk he

/-- Outer tokens are listed without a mark. -/
def OuterUnmarked (t : FieldTable) : Prop :=
  ∀ e ∈ t.outer, ¬ Marked e.token

theorem OuterUnmarked.not_marked (ht : t.OuterUnmarked) {e : OuterListing}
    (he : t.findOuter? token = some e) : ¬ Marked token := by
  have htoken : e.token = token := by simpa using List.find?_some he
  rw [← htoken]
  exact ht e (List.mem_of_find?_eq_some he)

/-- No mark is invented, and none is dropped but that of a value of the signed part. -/
theorem Denotes.isRequired_iff (h : t.Denotes token f) (ht : t.OuterUnmarked) :
    f.isRequired = true ↔ Marked token ∧ ∀ x, f ≠ .tbs x := by
  cases h with
  | outer _ he => exact iff_of_false Bool.false_ne_true fun h => ht.not_marked he h.1
  | value => exact iff_of_false Bool.false_ne_true fun h => h.2 _ rfl
  | name => simp [Field.isRequired, splitMark_snd_iff]
  | extension => simp [Field.isRequired, splitMark_snd_iff]

/-- A marked token is read as a value where the token without the mark is listed as one. -/
theorem Denotes.eq_tbs_iff (h : t.Denotes token f) (ht : t.OuterUnmarked)
    (hmarked : Marked token) : f = .tbs x ↔
      ∃ e, t.findTbs? (splitMark token).1 = some e ∧ e.meaning = some (.value x) := by
  cases h with
  | outer _ he => exact absurd hmarked (ht.not_marked he)
  | value _ he hx => simp [he, hx, eq_comm]
  | name _ he hparty => simp [he, hparty]
  | extension h he =>
    have hnone := tells_tbs.eq_none_iff.mp (h.first .tbs (by decide))
    constructor
    · intro hfield
      cases hfield
    · rintro ⟨e, he, _⟩
      exact absurd ⟨e, he⟩ hnone

/-- A token that stands for a value of the signed part is not listed with a mark. -/
def ValuesUnmarked (t : FieldTable) : Prop :=
  ∀ e ∈ t.tbs, ∀ x, e.meaning = some (.value x) → e.token ++ "+" ∉ t.referenceTokens

/-- Where values are listed without a mark, no listed token loses one. -/
theorem Denotes.isRequired_iff_marked (h : t.Denotes token f) (ht : t.OuterUnmarked)
    (hvalues : t.ValuesUnmarked) (htoken : token ∈ t.referenceTokens) :
    f.isRequired = true ↔ Marked token := by
  rw [h.isRequired_iff ht, and_iff_left_iff_imp]
  intro hmarked x hfield
  obtain ⟨e, he, hx⟩ := (h.eq_tbs_iff ht hmarked).mp hfield
  have hname : e.token = (splitMark token).1 := by simpa using List.find?_some he
  apply hvalues e (List.mem_of_find?_eq_some he) x hx
  rw [hname, hmarked.splitMark_fst_append]
  exact htoken

theorem outerUnmarked_standard : standard.OuterUnmarked := by
  unfold OuterUnmarked Marked
  decide +kernel

theorem valuesUnmarked_standard : standard.ValuesUnmarked := by
  have hall : ∀ x ∈ (Tagged.all : List TbsValue), ∀ e ∈ standard.tbs,
      e.meaning = some (.value x) → e.token ++ "+" ∉ standard.referenceTokens := by
    decide +kernel
  intro e he x
  exact hall x (Tagged.mem_all x) e he

/-- What a policy text can name of the standard fields is required just if it has a mark. -/
theorem isRequired_standard (htoken : token ∈ standard.referenceTokens)
    (h : standard.resolve token = .ok (some f)) : f.isRequired = true ↔ Marked token :=
  (denotes_of_resolve h).isRequired_iff_marked outerUnmarked_standard valuesUnmarked_standard htoken

/-- The mark of a token makes the field required, except on a value of the signed part; and such a
value is what a marked token stands for where the first entry under its name has that meaning. -/
theorem isRequired_of_resolve (ht : t.OuterUnmarked) (h : t.resolve token = .ok (some f)) :
    (f.isRequired = true ↔ Marked token ∧ ∀ x, f ≠ .tbs x) ∧
    (Marked token → ∀ x, f = .tbs x ↔
      ∃ e, t.findTbs? (splitMark token).1 = some e ∧ e.meaning = some (.value x)) := by
  have hf : t.Denotes token f := denotes_of_resolve h
  refine ⟨hf.isRequired_iff ht, ?_⟩
  intro hmarked x
  exact hf.eq_tbs_iff ht hmarked

/-- An attribute that is listed as an extension as well. -/
theorem isRequired_of_resolve_attribute :
    (Field.name .subject true .commonName).isRequired = true ↔
      Marked "CN+" ∧ ∀ x, Field.name .subject true .commonName ≠ .tbs x :=
  (isRequired_of_resolve
    (t := ⟨[], [⟨"CN", .subject, some (.name .subject)⟩], [⟨"CN", .keyUsage, true⟩]⟩)
    (by unfold OuterUnmarked Marked; decide +kernel) (by decide +kernel)).1

/-- A token that is listed for a value and for an extension loses its mark. -/
theorem mark_dropped_of_value : ¬ ∀ (t : FieldTable) (token : String) (f : Field),
    t.OuterUnmarked → t.Unmarked → token ∈ t.referenceTokens →
      t.resolve token = .ok (some f) → (f.isRequired = true ↔ Marked token) := by
  intro h
  have hrequired := h
    ⟨[], [⟨"X", .serialNumber, some (.value .serialNumber)⟩], [⟨"X", .keyUsage, true⟩]⟩
    "X+" (.tbs .serialNumber) (by unfold OuterUnmarked Marked; decide +kernel)
    ⟨by decide +kernel, by decide +kernel⟩ (by decide +kernel) (by decide +kernel)
  exact absurd (hrequired.mpr (by unfold Marked; decide +kernel)) Bool.false_ne_true

end FieldTable
end CertPolicy
