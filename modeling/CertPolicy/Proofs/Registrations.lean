import Mathlib.Data.List.Nodup
import CertPolicy.Proofs.Bindings
import CertPolicy.Proofs.Utf8

/-!
# Reserved words as a set

Which words a vocabulary reserves, and as what, depends on the set of what has been registered in
it and not on the order or on repetitions. The words are kept in an order that is total on their
texts, so a table is determined by its lookups (`Reserved.Sorted.ext`), and sorting the texts from
any other order gives the same list.
-/

namespace CertPolicy
set_option autoImplicit false

namespace Utf8
variable {s t u : List Char}

/-- Longer texts first, and texts of one length in the order of their bytes. -/
def LongestFirst (s t : List Char) : Prop :=
  size t < size s ∨ size s = size t ∧ encode s < encode t

instance : DecidableRel LongestFirst := fun s t =>
  inferInstanceAs (Decidable (size t < size s ∨ size s = size t ∧ encode s < encode t))

theorem LongestFirst.irrefl (s : List Char) : ¬ LongestFirst s s := by
  intro h
  rcases h with h | ⟨_, h⟩
  · exact Nat.lt_irrefl _ h
  · exact List.lt_irrefl _ h

theorem LongestFirst.trans (hst : LongestFirst s t) (htu : LongestFirst t u) :
    LongestFirst s u := by
  rcases hst with hst | ⟨hsize, hst⟩
  · rcases htu with htu | ⟨hsize', _⟩
    · exact Or.inl (Nat.lt_trans htu hst)
    · exact Or.inl (hsize' ▸ hst)
  · rcases htu with htu | ⟨hsize', htu⟩
    · exact Or.inl (hsize ▸ htu)
    · exact Or.inr ⟨hsize.trans hsize', List.lt_trans hst htu⟩

/-- Of two texts that differ, one stands before the other. -/
theorem not_longestFirst_iff : ¬ LongestFirst t s ↔ s = t ∨ LongestFirst s t := by
  constructor
  · intro h
    rcases Nat.lt_trichotomy (size t) (size s) with hlt | heq | hlt
    · exact Or.inr (Or.inl hlt)
    · by_cases hbytes : encode s < encode t
      · exact Or.inr (Or.inr ⟨heq.symm, hbytes⟩)
      · have hle : ¬ encode t < encode s := fun hlt => h (Or.inr ⟨heq, hlt⟩)
        have hencode : encode s = encode t :=
          List.le_antisymm (List.not_lt.mp hle) (List.not_lt.mp hbytes)
        exact Or.inl (encode_injective hencode)
    · exact absurd (Or.inl hlt) h
  · intro h hts
    rcases h with rfl | hst
    · exact LongestFirst.irrefl s hts
    · exact LongestFirst.irrefl s (hst.trans hts)

/-- Whether a text does not stand behind another, as a test to sort by. -/
def notBehind (s t : List Char) : Bool :=
  !decide (LongestFirst t s)

theorem notBehind_iff : notBehind s t = true ↔ s = t ∨ LongestFirst s t := by
  rw [notBehind, Bool.not_eq_true', decide_eq_false_iff_not, not_longestFirst_iff]

theorem notBehind_trans (s t u : List Char) (hst : notBehind s t = true)
    (htu : notBehind t u = true) : notBehind s u = true := by
  rw [notBehind_iff] at hst htu ⊢
  rcases hst with rfl | hst
  · exact htu
  · rcases htu with rfl | htu
    · exact Or.inr hst
    · exact Or.inr (hst.trans htu)

theorem notBehind_total (s t : List Char) : (notBehind s t || notBehind t s) = true := by
  rw [Bool.or_eq_true, notBehind_iff, notBehind_iff]
  by_cases h : LongestFirst t s
  · exact Or.inr (Or.inr h)
  · exact Or.inl (not_longestFirst_iff.mp h)

theorem notBehind_antisymm (hst : notBehind s t = true) (hts : notBehind t s = true) : s = t := by
  rw [notBehind_iff] at hst hts
  rcases hst with hst | hst
  · exact hst
  · rcases hts with hts | hts
    · exact hts.symm
    · exact absurd (hst.trans hts) (LongestFirst.irrefl s)

end Utf8

theorem Word.precedes_iff {v w : Word} :
    v.precedes w = true ↔ Utf8.LongestFirst v.text w.text := by
  simp only [precedes, Bool.or_eq_true, decide_eq_true_eq, Bool.and_eq_true, beq_iff_eq]
  rfl

namespace Reserved
open Utf8 (LongestFirst notBehind)
variable {r s : Reserved} {w : Word} {words : List Word}

/-- No text stands behind a later one, or twice. -/
def Sorted (r : Reserved) : Prop :=
  r.words.Pairwise fun v w => LongestFirst v.text w.text

theorem sorted_place (h : Sorted ⟨words⟩) (w : Word) : Sorted ⟨place w words⟩ := by
  induction words with
  | nil => exact List.pairwise_singleton _ w
  | cons u words ih =>
    obtain ⟨hu, hwords⟩ := List.pairwise_cons.mp h
    unfold place
    split
    · rename_i htext
      apply List.pairwise_cons.mpr
      exact ⟨fun v hv => htext ▸ hu v hv, hwords⟩
    · rename_i htext
      split
      · rename_i hprecedes
        rw [Word.precedes_iff] at hprecedes
        apply List.pairwise_cons.mpr
        refine ⟨?_, h⟩
        intro v hv
        rcases List.mem_cons.mp hv with rfl | hv
        · exact hprecedes
        · exact hprecedes.trans (hu v hv)
      · rename_i hprecedes
        rw [Word.precedes_iff, Utf8.not_longestFirst_iff] at hprecedes
        apply List.pairwise_cons.mpr
        refine ⟨?_, ih hwords⟩
        intro v hv
        rcases mem_place hv with rfl | hv
        · exact hprecedes.resolve_left htext
        · exact hu v hv

theorem Sorted.insertAll (h : r.Sorted) (texts : List String) (k : Category) :
    (r.insertAll texts k).Sorted := by
  induction texts generalizing r with
  | nil => exact h
  | cons t texts ih => exact ih (r := r.insert ⟨t.toList, k⟩) (sorted_place h _)

theorem sorted_levels : levels.Sorted := by
  apply List.pairwise_pair.mpr
  decide

theorem sorted_ofTables (operators : OperatorTable) (fields : FieldTable) :
    (ofTables operators fields).Sorted :=
  (sorted_levels.insertAll _ _).insertAll _ _

theorem Sorted.nodup (h : r.Sorted) : (r.words.map (·.text)).Nodup := by
  apply List.pairwise_map.mpr
  apply h.imp
  intro v w hvw heq
  rw [heq] at hvw
  exact LongestFirst.irrefl _ hvw

/-- A sorted table holds a word exactly if its lookup finds it. -/
theorem Sorted.mem_iff (h : r.Sorted) :
    w ∈ r.words ↔ r.category? w.text = some w.category := by
  constructor
  · intro hw
    cases hk : r.category? w.text with
    | none => exact absurd rfl (category?_eq_none_iff.mp hk w hw)
    | some k =>
      obtain ⟨v, hv, htext, rfl⟩ := exists_of_category? hk
      rw [List.inj_on_of_nodup_map h.nodup hv hw htext]
  · intro hk
    obtain ⟨v, hv, htext, hcategory⟩ := exists_of_category? hk
    obtain ⟨text, category⟩ := w
    subst htext hcategory
    exact hv

/-- A sorted table is determined by its lookups. -/
theorem Sorted.ext (hr : r.Sorted) (hs : s.Sorted)
    (h : ∀ text, r.category? text = s.category? text) : r = s := by
  have hmem (w : Word) : w ∈ r.words ↔ w ∈ s.words := by
    rw [hr.mem_iff, hs.mem_iff, h]
  have hperm : r.words.Perm s.words :=
    (List.perm_ext_iff_of_nodup hr.nodup.of_map hs.nodup.of_map).mpr hmem
  have hwords : r.words = s.words := by
    apply List.Perm.eq_of_pairwise _ hr hs hperm
    intro v w _ _ hvw hwv
    exact absurd (hvw.trans hwv) (LongestFirst.irrefl _)
  cases r
  cases s
  exact congrArg mk hwords

theorem mem_texts_iff {text : List Char} :
    text ∈ r.words.map (·.text) ↔ (r.category? text).isSome := by
  rw [← not_iff_not, Option.not_isSome_iff_eq_none, category?_eq_none_iff]
  simp

/-- Sorting its texts from any order gives those of a sorted table. -/
theorem Sorted.mergeSort_eq (h : r.Sorted) {keys : List (List Char)} (hkeys : keys.Nodup)
    (hmem : ∀ text, text ∈ keys ↔ (r.category? text).isSome) :
    keys.mergeSort notBehind = r.words.map (·.text) := by
  have hperm : (keys.mergeSort notBehind).Perm (r.words.map (·.text)) := by
    apply (List.mergeSort_perm keys _).trans
    apply (List.perm_ext_iff_of_nodup hkeys h.nodup).mpr
    intro text
    rw [hmem, mem_texts_iff]
  have hsorted := List.pairwise_mergeSort Utf8.notBehind_trans Utf8.notBehind_total keys
  have hwords : (r.words.map (·.text)).Pairwise fun s t => notBehind s t = true := by
    apply List.pairwise_map.mpr
    apply h.imp
    intro v w hvw
    exact Utf8.notBehind_iff.mpr (Or.inr hvw)
  apply List.Perm.eq_of_pairwise _ hsorted hwords hperm
  intro s t _ _ hst hts
  exact Utf8.notBehind_antisymm hst hts

theorem category?_levels (text : String) : levels.category? text.toList =
    if text = "(" then some .startLevel else if text = ")" then some .endLevel else none := by
  by_cases hstart : text = "("
  · subst hstart
    rfl
  · rw [if_neg hstart]
    by_cases hend : text = ")"
    · subst hend
      rfl
    · rw [if_neg hend, category?_eq_none_iff]
      intro w hw htext
      rcases mem_levels_iff.mp hw with rfl | rfl
      · exact hstart (String.toList_inj.mp htext.symm)
      · exact hend (String.toList_inj.mp htext.symm)

end Reserved

/-- What a single listing adds to the reference tokens. -/
def FieldListing.references : FieldListing → List String
  | .outer e => (FieldTable.mk [e] [] []).outerTokens
  | .tbs e => (FieldTable.mk [] [e] []).tbsTokens
  | .extension e => (FieldTable.mk [] [] [e]).extensionTokens

/-- What holds after a history of additions held before it or was added at some time. -/
theorem foldl_iff {α β : Type} {add : α → β → α} {p : α → Prop} {q : β → Prop}
    (h : ∀ a b, p (add a b) ↔ p a ∨ q b) (a : α) (bs : List β) :
    p (bs.foldl add a) ↔ p a ∨ ∃ b ∈ bs, q b := by
  induction bs generalizing a with
  | nil => simp
  | cons b bs ih => rw [List.foldl_cons, ih, h, or_assoc, List.exists_mem_cons_iff]

namespace FieldTable
variable {t : FieldTable} {token : String}

theorem mem_referenceTokens_add {e : FieldListing} :
    token ∈ (t.add e).referenceTokens ↔ token ∈ t.referenceTokens ∨ token ∈ e.references := by
  simp only [referenceTokens, List.mem_append]
  cases e with
  | outer e =>
    have houter : (t.add (.outer e)).outerTokens =
        t.outerTokens ++ (FieldListing.outer e).references := by
      simp only [add, outerTokens, List.filter_append, List.map_append, FieldListing.references]
    rw [houter, List.mem_append]
    change (_ ∨ token ∈ t.tbsTokens) ∨ token ∈ t.extensionTokens ↔ _
    tauto
  | tbs e =>
    have htbs : (t.add (.tbs e)).tbsTokens = t.tbsTokens ++ (FieldListing.tbs e).references := by
      simp only [add, tbsTokens, List.filter_append, List.flatMap_append, FieldListing.references]
    rw [htbs, List.mem_append]
    change (token ∈ t.outerTokens ∨ _) ∨ token ∈ t.extensionTokens ↔ _
    tauto
  | extension e =>
    have hextension : (t.add (.extension e)).extensionTokens =
        t.extensionTokens ++ (FieldListing.extension e).references := by
      simp only [add, extensionTokens, List.flatMap_append, FieldListing.references]
    rw [hextension, List.mem_append]
    exact or_assoc.symm

theorem mem_referenceTokens_addAll {listings : List FieldListing} :
    token ∈ (t.addAll listings).referenceTokens ↔
      token ∈ t.referenceTokens ∨ ∃ e ∈ listings, token ∈ e.references :=
  foldl_iff (p := fun t => token ∈ t.referenceTokens) (q := fun e => token ∈ e.references)
    (fun _ _ => mem_referenceTokens_add) t listings

end FieldTable

theorem OperatorTable.mem_tokens_bind {t : OperatorTable} {b : Binding} {token : String} :
    token ∈ (t.bind b).tokens ↔ token ∈ t.tokens ∨ b.token = token := by
  rw [tokens_bind]
  split
  · rename_i hmem
    constructor
    · exact Or.inl
    · intro h
      rcases h with h | rfl
      · exact h
      · exact hmem
  · rw [List.mem_append, List.mem_singleton, eq_comm]

theorem OperatorTable.mem_tokens_bindAll {t : OperatorTable} {bindings : List Binding}
    {token : String} :
    token ∈ (t.bindAll bindings).tokens ↔ token ∈ t.tokens ∨ ∃ b ∈ bindings, b.token = token :=
  foldl_iff (p := fun t => token ∈ t.tokens) (q := fun b => b.token = token)
    (fun _ _ => mem_tokens_bind) t bindings

/-- The same operators and the same fields make the same table of words, in whatever order they are
registered and however often. -/
theorem Reserved.ofTables_congr {operators : OperatorTable} {fields : FieldTable}
    {bs cs : List Binding} {es gs : List FieldListing} (hbindings : ∀ b, b ∈ bs ↔ b ∈ cs)
    (hlistings : ∀ e, e ∈ es ↔ e ∈ gs) :
    ofTables (operators.bindAll bs) (fields.addAll es) =
      ofTables (operators.bindAll cs) (fields.addAll gs) := by
  apply (sorted_ofTables _ _).ext (sorted_ofTables _ _)
  intro text
  have hoperator : String.ofList text ∈ (operators.bindAll bs).tokens ↔
      String.ofList text ∈ (operators.bindAll cs).tokens := by
    simp only [OperatorTable.mem_tokens_bindAll, hbindings]
  have hreference : String.ofList text ∈ (fields.addAll es).referenceTokens ↔
      String.ofList text ∈ (fields.addAll gs).referenceTokens := by
    simp only [FieldTable.mem_referenceTokens_addAll, hlistings]
  have hcategory (operators : OperatorTable) (fields : FieldTable) :
      (ofTables operators fields).category? text =
        if String.ofList text ∈ fields.referenceTokens then some .reference
        else if String.ofList text ∈ operators.tokens then some .operator
        else levels.category? text := category?_ofTables text
  simp only [hcategory, hoperator, hreference]

/-- The reserved words of two tables are their reference tokens, their operator tokens and the
parentheses, a word of several kinds being of the first of these. They are listed once each, in an
order that sorting them from any other order gives. Registering the same operators and fields in
another order, or again, does not change them. -/
theorem Reserved.words_of_registrations :
    (∀ (operators : OperatorTable) (fields : FieldTable),
      (∀ text : String, (ofTables operators fields).category? text.toList =
        if text ∈ fields.referenceTokens then some .reference
        else if text ∈ operators.tokens then some .operator
        else if text = "(" then some .startLevel
        else if text = ")" then some .endLevel
        else none) ∧
      (∀ text, text ∈ (ofTables operators fields).words.map (·.text) ↔
        ((ofTables operators fields).category? text).isSome) ∧
      ((ofTables operators fields).words.map (·.text)).Nodup ∧
      ((ofTables operators fields).words.map (·.text)).Pairwise Utf8.LongestFirst ∧
      ∀ keys : List (List Char), keys.Nodup →
        (∀ text, text ∈ keys ↔ ((ofTables operators fields).category? text).isSome) →
        keys.mergeSort Utf8.notBehind = (ofTables operators fields).words.map (·.text)) ∧
    ∀ (operators : OperatorTable) (fields : FieldTable) (bs cs : List Binding)
      (es gs : List FieldListing), (∀ b, b ∈ bs ↔ b ∈ cs) → (∀ e, e ∈ es ↔ e ∈ gs) →
      (Vocabulary.ofTables (operators.bindAll bs) (fields.addAll es)).reserved =
        (Vocabulary.ofTables (operators.bindAll cs) (fields.addAll gs)).reserved := by
  constructor
  · intro operators fields
    have hsorted := sorted_ofTables operators fields
    refine ⟨?_, fun _ => mem_texts_iff, hsorted.nodup, List.pairwise_map.mpr hsorted, ?_⟩
    · intro text
      rw [category?_ofTables, String.ofList_toList, category?_levels]
      rfl
    · intro keys hkeys hmem
      exact hsorted.mergeSort_eq hkeys hmem
  · intro operators fields bs cs es gs hbindings hlistings
    exact ofTables_congr hbindings hlistings

/-- An operator is written as a parenthesis and another one like a field. -/
theorem Reserved.words_of_registrations_overlapping :
    [[')'], ['O', 'R'], ['('], ['O', 'R', '+']].mergeSort Utf8.notBehind =
      (ofTables ⟨[⟨"OR", .logicalOr, .binary⟩, ⟨"(", .logicalNot, .unary⟩]⟩
        ⟨[], [], [⟨"OR", .keyUsage, true⟩]⟩).words.map (·.text) ∧
    (Vocabulary.ofTables
        (.bindAll .empty [⟨"OR", .logicalOr, .binary⟩, ⟨"(", .logicalNot, .unary⟩])
        (.addAll .empty [.extension ⟨"OR", .keyUsage, true⟩])).reserved =
      (Vocabulary.ofTables
        (.bindAll .empty [⟨"(", .logicalNot, .unary⟩, ⟨"OR", .logicalOr, .binary⟩,
          ⟨"(", .logicalNot, .unary⟩])
        (.addAll .empty [.extension ⟨"OR", .keyUsage, true⟩,
          .extension ⟨"OR", .keyUsage, true⟩])).reserved := by
  obtain ⟨htables, hregistrations⟩ := words_of_registrations
  constructor
  · obtain ⟨_, hmem, _, _, hsort⟩ := htables
      ⟨[⟨"OR", .logicalOr, .binary⟩, ⟨"(", .logicalNot, .unary⟩]⟩
      ⟨[], [], [⟨"OR", .keyUsage, true⟩]⟩
    apply hsort _ (by decide)
    intro text
    have hperm : List.Perm [[')'], ['O', 'R'], ['('], ['O', 'R', '+']]
        ((ofTables ⟨[⟨"OR", .logicalOr, .binary⟩, ⟨"(", .logicalNot, .unary⟩]⟩
          ⟨[], [], [⟨"OR", .keyUsage, true⟩]⟩).words.map (·.text)) := by decide +kernel
    exact hperm.mem_iff.trans (hmem text)
  · apply hregistrations
    · intro b
      simp only [List.mem_cons, List.not_mem_nil, or_false]
      tauto
    · intro e
      simp only [List.mem_cons, List.not_mem_nil, or_false, or_self]

end CertPolicy
