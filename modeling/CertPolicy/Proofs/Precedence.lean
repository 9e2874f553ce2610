import CertPolicy.Proofs.Naming

/-!
# Which list decides on a token

The lists of a field table are asked in a fixed order, and the first one that knows a token decides
on it, be it with a field or with an error. In each list the first listing counts, and new listings
are added behind those that are there. So what a token means does not change when listings are
added to the list that decides on it or to later ones, nor when listings of other tokens are added
anywhere.
-/

namespace CertPolicy
set_option autoImplicit false

namespace Taxonomy

/-- The place of a list in the order in which the lists are asked. -/
def rank : Taxonomy → Nat
  | .outer => 0
  | .tbs => 1
  | .extension => 2

/-- The form of a token that is looked up in a list. -/
def key (token : String) : Taxonomy → String
  | .outer => token
  | .tbs | .extension => (splitMark token).1

end Taxonomy

namespace FieldListing

def taxonomy : FieldListing → Taxonomy
  | .outer _ => .outer
  | .tbs _ => .tbs
  | .extension _ => .extension

def token : FieldListing → String
  | .outer e => e.token
  | .tbs e => e.token
  | .extension e => e.token

end FieldListing

namespace FieldTable
variable {t u : FieldTable} {token : String} {k : Taxonomy} {e : FieldListing}
  {listings : List FieldListing}

/-- What a single list has to say of a token. -/
def lookup (t : FieldTable) (token : String) : Taxonomy → Lookup
  | .outer => t.resolveOuter token
  | .tbs => t.resolveTbs token
  | .extension => t.resolveExtension token

/-- The list knows the token, and no list that is asked before it does. -/
structure Decides (t : FieldTable) (token : String) (k : Taxonomy) : Prop where
  known : t.lookup token k ≠ .ok none
  first : ∀ j, j.rank < k.rank → t.lookup token j = .ok none

/-- Where a lookup finds something or fails, the next one is not made. -/
theorem Lookup.bind_of_ne_none {l : Lookup} (h : l ≠ .ok none) (next : Lookup) :
    (do
      match ← l with
      | some f => return some f
      | none => next) = l := by
  cases l with
  | error e => rfl
  | ok found =>
    cases found with
    | none => exact absurd rfl h
    | some f => rfl

theorem Decides.resolve_eq (h : t.Decides token k) : t.resolve token = t.lookup token k := by
  cases k with
  | outer => exact Lookup.bind_of_ne_none h.known _
  | tbs =>
    have houter : t.resolveOuter token = .ok none := h.first .outer (by decide)
    rw [resolve, houter]
    exact Lookup.bind_of_ne_none h.known _
  | extension =>
    have houter : t.resolveOuter token = .ok none := h.first .outer (by decide)
    have htbs : t.resolveTbs token = .ok none := h.first .tbs (by decide)
    rw [resolve, houter, ok_bind, htbs]
    rfl

/-- Some list decides on a token that is known at all. -/
theorem exists_decides (h : t.resolve token ≠ .ok none) : ∃ k, t.Decides token k := by
  by_cases houter : t.lookup token .outer = .ok none
  · by_cases htbs : t.lookup token .tbs = .ok none
    · by_cases hextension : t.lookup token .extension = .ok none
      · have hnone : t.resolve token = .ok none := by
          have houter' : t.resolveOuter token = .ok none := houter
          have htbs' : t.resolveTbs token = .ok none := htbs
          rw [resolve, houter', ok_bind, htbs']
          exact hextension
        exact absurd hnone h
      · refine ⟨.extension, hextension, ?_⟩
        intro j hj
        cases j with
        | outer => exact houter
        | tbs => exact htbs
        | extension => exact absurd hj (by decide)
    · refine ⟨.tbs, htbs, ?_⟩
      intro j hj
      cases j with
      | outer => exact houter
      | tbs | extension => exact absurd hj (by decide)
  · exact ⟨.outer, houter, fun j hj => absurd hj (Nat.not_lt_zero _)⟩

theorem resolve_congr (h : ∀ k, t.lookup token k = u.lookup token k) :
    t.resolve token = u.resolve token := by
  have houter : t.resolveOuter token = u.resolveOuter token := h .outer
  have htbs : t.resolveTbs token = u.resolveTbs token := h .tbs
  have hextension : t.resolveExtension token = u.resolveExtension token := h .extension
  rw [resolve, resolve, houter, htbs, hextension]

/-- An entry at the end of a list is found only if it has the key and is the first that has. -/
theorem find?_concat {α : Type} {entries : List α} {e : α} {key : α → String} {name : String}
    (h : (∃ found, entries.find? (key · == name) = some found) ∨ key e ≠ name) :
    (entries ++ [e]).find? (key · == name) = entries.find? (key · == name) := by
  rw [List.find?_append]
  rcases h with ⟨found, hfound⟩ | hne
  · rw [hfound, Option.some_or]
  · rw [List.find?_singleton, if_neg (by simpa using hne), Option.or_none]

theorem resolveOuter_congr (h : t.findOuter? token = u.findOuter? token) :
    t.resolveOuter token = u.resolveOuter token := by
  rw [resolveOuter, resolveOuter, h]

theorem resolveTbs_congr (h : t.findTbs? (splitMark token).1 = u.findTbs? (splitMark token).1) :
    t.resolveTbs token = u.resolveTbs token := by
  simp only [resolveTbs, h]

theorem resolveExtension_congr
    (h : t.findExtension? (splitMark token).1 = u.findExtension? (splitMark token).1) :
    t.resolveExtension token = u.resolveExtension token := by
  simp only [resolveExtension, h]

/-- A new listing changes what a list says of a token only if it is in that list and of that token,
and the first one there. -/
theorem lookup_add (h : e.taxonomy = k → t.lookup token k ≠ .ok none ∨ e.token ≠ k.key token) :
    (t.add e).lookup token k = t.lookup token k := by
  cases e with
  | outer e =>
    cases k with
    | outer =>
      exact resolveOuter_congr (find?_concat ((h rfl).imp_left tells_outer.known_of_ne))
    | tbs | extension => rfl
  | tbs e =>
    cases k with
    | tbs => exact resolveTbs_congr (find?_concat ((h rfl).imp_left tells_tbs.known_of_ne))
    | outer | extension => rfl
  | extension e =>
    cases k with
    | extension =>
      exact resolveExtension_congr (find?_concat ((h rfl).imp_left tells_extension.known_of_ne))
    | outer | tbs => rfl

/-- The list that decides goes on to decide in the same way, as long as the lists before it stay as
they are. -/
theorem Decides.add (h : t.Decides token k) (hrank : k.rank ≤ e.taxonomy.rank) :
    (t.add e).Decides token k ∧ (t.add e).lookup token k = t.lookup token k := by
  have hk : (t.add e).lookup token k = t.lookup token k := lookup_add fun _ => Or.inl h.known
  refine ⟨⟨?_, ?_⟩, hk⟩
  · rw [hk]
    exact h.known
  · intro j hj
    rw [lookup_add, h.first j hj]
    rintro rfl
    omega

theorem Decides.addAll (h : t.Decides token k)
    (hrank : ∀ e ∈ listings, k.rank ≤ e.taxonomy.rank) :
    (t.addAll listings).Decides token k ∧
      (t.addAll listings).lookup token k = t.lookup token k := by
  induction listings generalizing t with
  | nil => exact ⟨h, rfl⟩
  | cons e listings ih =>
    obtain ⟨he, hlisting⟩ := List.forall_mem_cons.mp hrank
    obtain ⟨hadd, hsame⟩ := h.add he
    obtain ⟨hall, hrest⟩ := ih hadd hlisting
    exact ⟨hall, hrest.trans hsame⟩

theorem lookup_addAll (h : ∀ e ∈ listings, ∀ k : Taxonomy, e.token ≠ k.key token)
    (k : Taxonomy) : (t.addAll listings).lookup token k = t.lookup token k := by
  induction listings generalizing t with
  | nil => rfl
  | cons e listings ih =>
    obtain ⟨he, hlisting⟩ := List.forall_mem_cons.mp h
    have hadd : (t.add e).lookup token k = t.lookup token k := lookup_add fun _ => Or.inr (he k)
    exact (ih hlisting).trans hadd

/-- A field table can be added to without changing what a token means: in the list that decides on
the token and the lists after it, whatever is added, and with listings of other tokens in all. -/
theorem resolve_addAll (t : FieldTable) (token : String) (listings : List FieldListing) :
    (∀ k, t.Decides token k → (∀ e ∈ listings, k.rank ≤ e.taxonomy.rank) →
      (t.addAll listings).resolve token = t.resolve token) ∧
    ((∀ e ∈ listings, e.token ≠ token ∧ e.token ≠ (splitMark token).1) →
      (t.addAll listings).resolve token = t.resolve token) := by
  constructor
  · intro k hk hrank
    obtain ⟨hall, hsame⟩ := hk.addAll hrank
    rw [hall.resolve_eq, hk.resolve_eq, hsame]
  · intro hother
    apply resolve_congr
    apply lookup_addAll
    intro e he k
    cases k with
    | outer => exact (hother e he).1
    | tbs | extension => exact (hother e he).2

/-- An attribute's token is listed again as an extension and, with another meaning, in its own
list; an outer field is added under another token. -/
theorem resolve_addAll_attribute :
    FieldTable.Decides ⟨[], [⟨"CN", .subject, some (.name .subject)⟩], []⟩ "CN+" .tbs ∧
    (FieldTable.addAll ⟨[], [⟨"CN", .subject, some (.name .subject)⟩], []⟩
        [.tbs ⟨"CN", .serialNumber, some (.value .serialNumber)⟩,
          .extension ⟨"CN", .keyUsage, true⟩]).resolve "CN+" =
      .ok (some (.name .subject true .commonName)) ∧
    (FieldTable.addAll ⟨[], [⟨"CN", .subject, some (.name .subject)⟩], []⟩
        [.outer ⟨"C", .signatureAlgorithm, true⟩, .tbs ⟨"CN++", .issuer, none⟩]).resolve "CN+" =
      .ok (some (.name .subject true .commonName)) := by
  have hdecides : FieldTable.Decides ⟨[], [⟨"CN", .subject, some (.name .subject)⟩], []⟩ "CN+"
      .tbs := by
    constructor
    · decide +kernel
    · intro j hj
      cases j with
      | outer => decide +kernel
      | tbs | extension => exact absurd hj (by decide)
  refine ⟨hdecides, ?_, ?_⟩
  · exact (resolve_addAll _ _ _).1 .tbs hdecides (by decide)
  · exact (resolve_addAll _ _ _).2 (by decide +kernel)

end FieldTable
end CertPolicy
