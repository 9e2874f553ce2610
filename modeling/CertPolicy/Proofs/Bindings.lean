import Mathlib.Data.Finset.Card
import Mathlib.Data.List.Induction
import CertPolicy.OperatorTable.Indexed

/-!
# What a table of operators remembers

A table of operators is made by binding tokens one after another. What it holds in the end is told
by the whole history: the tokens in the order of their first bindings, and with each token its last
binding. A table with an index holds the same, since the index leads to a token exactly where its
binding stands (`IndexedTable.Coherent`), and no binding is ever put out of range.
-/

namespace CertPolicy
set_option autoImplicit false

namespace OperatorTable
variable {t : OperatorTable} {b e : Binding} {token : String} {bindings : List Binding}

def tokens (t : OperatorTable) : List String :=
  t.bindings.map (·.token)

theorem tokens_cons (e : Binding) (bindings : List Binding) :
    (OperatorTable.mk (e :: bindings)).tokens = e.token :: (OperatorTable.mk bindings).tokens := rfl

theorem position?_eq_none_iff : t.position? token = none ↔ token ∉ t.tokens := by
  simp [position?, tokens]

/-- A binding replaces the first one of its token, and goes behind all the others. -/
theorem bind_cons (e : Binding) (bindings : List Binding) (b : Binding) :
    (OperatorTable.mk (e :: bindings)).bind b =
      if e.token = b.token then ⟨b :: bindings⟩
      else ⟨e :: ((OperatorTable.mk bindings).bind b).bindings⟩ := by
  unfold OperatorTable.bind position?
  rw [List.findIdx?_cons]
  by_cases h : e.token = b.token
  · simp [h]
  · cases bindings.findIdx? (·.token == b.token) with
    | none => simp [h]
    | some i => simp [h]

theorem tokens_bind (t : OperatorTable) (b : Binding) :
    (t.bind b).tokens = if b.token ∈ t.tokens then t.tokens else t.tokens ++ [b.token] := by
  obtain ⟨bindings⟩ := t
  induction bindings with
  | nil => rfl
  | cons e bindings ih =>
    rw [bind_cons]
    by_cases h : e.token = b.token
    · simp [tokens, h]
    · rw [if_neg h, tokens_cons, tokens_cons, ih]
      by_cases hmem : b.token ∈ (OperatorTable.mk bindings).tokens
      · simp [hmem]
      · simp [hmem, Ne.symm h]

/-- A lookup finds the new binding under its token, and under the others what it found before. -/
theorem find?_bind (t : OperatorTable) (b : Binding) (token : String) :
    (t.bind b).find? token = if b.token = token then some b else t.find? token := by
  obtain ⟨bindings⟩ := t
  induction bindings with
  | nil =>
    rw [show (OperatorTable.mk []).bind b = ⟨[b]⟩ from rfl]
    simp [find?, List.find?_singleton]
  | cons e bindings ih =>
    rw [bind_cons]
    by_cases h : e.token = b.token
    · rw [if_pos h]
      by_cases hb : b.token = token
      · simp [find?, hb]
      · simp [find?, hb, h]
    · rw [if_neg h]
      by_cases he : e.token = token
      · have hb : b.token ≠ token := fun hb => h (he.trans hb.symm)
        simp [find?, he, hb]
      · simpa [find?, he] using ih

theorem bindAll_concat (t : OperatorTable) (bindings : List Binding) (b : Binding) :
    t.bindAll (bindings ++ [b]) = (t.bindAll bindings).bind b := by
  simp [bindAll]

/-- The tokens stand in the order in which they were first bound. -/
theorem tokens_bindAll (bindings : List Binding) :
    (empty.bindAll bindings).tokens = (bindings.map (·.token)).eraseDups := by
  induction bindings using List.reverseRecOn with
  | nil => rfl
  | append_singleton bindings b ih =>
    rw [bindAll_concat, tokens_bind, ih, List.map_append, List.eraseDups_append]
    simp only [List.mem_eraseDups, List.map_singleton, List.removeAll, List.filter_singleton]
    by_cases h : b.token ∈ bindings.map (·.token)
    · simp [h]
    · simp [h, List.eraseDups_cons]

theorem find?_bindAll (bindings : List Binding) (token : String) :
    (empty.bindAll bindings).find? token = bindings.findRev? (·.token == token) := by
  induction bindings using List.reverseRecOn with
  | nil => rfl
  | append_singleton bindings b ih =>
    rw [bindAll_concat, find?_bind, ih]
    by_cases h : b.token = token
    · simp [List.findRev?_eq_find?_reverse, h]
    · simp [List.findRev?_eq_find?_reverse, h]

theorem nodup_tokens_bind (h : t.tokens.Nodup) (b : Binding) : (t.bind b).tokens.Nodup := by
  rw [tokens_bind]
  split
  · exact h
  · rename_i hnew
    apply List.nodup_append.mpr
    refine ⟨h, List.nodup_singleton _, ?_⟩
    intro s hs r hr
    rw [List.mem_singleton.mp hr]
    rintro rfl
    exact hnew hs

theorem nodup_tokens_bindAll (h : t.tokens.Nodup) (bindings : List Binding) :
    (t.bindAll bindings).tokens.Nodup := by
  induction bindings generalizing t with
  | nil => exact h
  | cons b bindings ih => exact ih (nodup_tokens_bind h b)

end OperatorTable

namespace IndexedTable
variable {t : IndexedTable} {token : String} {i : Nat}

/-- The list without the index. -/
def table (t : IndexedTable) : OperatorTable := ⟨t.entries⟩

/-- The index leads from a token to a place exactly when a binding of the token stands there. -/
def Coherent (t : IndexedTable) : Prop :=
  ∀ (token : String) (i : Nat),
    t.index[token]? = some i ↔ ∃ b, t.entries[i]? = some b ∧ b.token = token

theorem coherent_empty : empty.Coherent := by
  intro token i
  simp [empty]

theorem Coherent.lt_length (h : t.Coherent) (hi : t.index[token]? = some i) :
    i < t.entries.length := by
  obtain ⟨_, hb, _⟩ := (h token i).mp hi
  exact (List.getElem?_eq_some_iff.mp hb).1

/-- The index finds what a walk along the list finds. -/
theorem Coherent.index_eq (h : t.Coherent) (token : String) :
    t.index[token]? = t.table.position? token := by
  cases hp : t.table.position? token with
  | none =>
    apply Option.eq_none_iff_forall_ne_some.mpr
    intro i hi
    obtain ⟨b, hb, hbtoken⟩ := (h token i).mp hi
    apply OperatorTable.position?_eq_none_iff.mp hp
    rw [← hbtoken]
    exact List.mem_map_of_mem (List.mem_of_getElem? hb)
  | some i =>
    obtain ⟨hlt, htoken, _⟩ := List.findIdx?_eq_some_iff_getElem.mp hp
    apply (h token i).mpr
    exact ⟨_, List.getElem?_eq_getElem hlt, by simpa using htoken⟩

theorem Coherent.find?_eq (h : t.Coherent) (token : String) :
    t.find? token = t.table.find? token := by
  rw [find?, h.index_eq, OperatorTable.find?, List.find?_eq_bind_findIdx?_getElem?]
  rfl

theorem getElem?_concat_eq_some_iff {entries : List Binding} {b e : Binding} {i : Nat} :
    (entries ++ [b])[i]? = some e ↔ entries[i]? = some e ∨ entries.length = i ∧ b = e := by
  rcases Nat.lt_trichotomy i entries.length with hlt | rfl | hlt
  · rw [List.getElem?_append_left hlt]
    simp [Nat.ne_of_gt hlt]
  · simp
  · have hend : (entries ++ [b]).length ≤ i := by
      rw [List.length_append]
      exact hlt
    rw [List.getElem?_eq_none hend, List.getElem?_eq_none (Nat.le_of_lt hlt)]
    simp [Nat.ne_of_lt hlt]

/-- Adding a binding does not fail, and the index goes on to lead to the places of the tokens. -/
theorem Coherent.exists_bind? (h : t.Coherent) (b : Binding) :
    ∃ u, t.bind? b = some u ∧ u.Coherent ∧ u.table = t.table.bind b := by
  cases hi : t.index[b.token]? with
  | some i =>
    have hlt := h.lt_length hi
    obtain ⟨e, he, hetoken⟩ := (h b.token i).mp hi
    refine ⟨{ t with entries := t.entries.set i b }, ?_, ?_, ?_⟩
    · simp only [bind?, hi, if_pos hlt]
    · intro token j
      simp only
      rw [h token j, List.getElem?_set]
      by_cases hj : i = j
      · subst hj
        rw [he, if_pos rfl, if_pos hlt]
        simp [hetoken]
      · simp [hj]
    · rw [h.index_eq] at hi
      simp only [OperatorTable.bind, hi]
      rfl
  | none =>
    refine ⟨⟨t.entries ++ [b], t.index.insert b.token t.entries.length⟩, ?_, ?_, ?_⟩
    · simp only [bind?, hi]
    · intro token j
      simp only [Std.HashMap.getElem?_insert, getElem?_concat_eq_some_iff, beq_iff_eq]
      by_cases hb : b.token = token
      · subst hb
        have hnew : ∀ e, t.entries[j]? = some e → e.token ≠ b.token := by
          intro e he hetoken
          have hj := (h b.token j).mpr ⟨e, he, hetoken⟩
          rw [hi] at hj
          cases hj
        rw [if_pos rfl, Option.some.injEq]
        constructor
        · intro hj
          exact ⟨b, Or.inr ⟨hj, rfl⟩, rfl⟩
        · intro hex
          obtain ⟨e, he | he, hetoken⟩ := hex
          · exact absurd hetoken (hnew e he)
          · exact he.1
      · rw [if_neg hb, h token j]
        constructor
        · intro hex
          obtain ⟨e, he, hetoken⟩ := hex
          exact ⟨e, Or.inl he, hetoken⟩
        · intro hex
          obtain ⟨e, he | he, hetoken⟩ := hex
          · exact ⟨e, he, hetoken⟩
          · rw [← he.2] at hetoken
            exact absurd hetoken hb
    · rw [h.index_eq] at hi
      simp only [OperatorTable.bind, hi]
      rfl

theorem Coherent.exists_bindAll? (h : t.Coherent) (bindings : List Binding) :
    ∃ u, t.bindAll? bindings = some u ∧ u.Coherent ∧ u.table = t.table.bindAll bindings := by
  induction bindings generalizing t with
  | nil => exact ⟨t, rfl, h, rfl⟩
  | cons b bindings ih =>
    obtain ⟨u, hu, hcoherent, htable⟩ := h.exists_bind? b
    obtain ⟨last, hlast, hlastCoherent, hlastTable⟩ := ih hcoherent
    refine ⟨last, ?_, hlastCoherent, ?_⟩
    · rw [bindAll?, List.foldlM_cons, hu]
      exact hlast
    · rw [hlastTable, htable]
      rfl

end IndexedTable

/-- What a table holds after a history of bindings: each token once, where it was first bound and
with its last binding. A table with an index comes through the same history without putting
anything out of range, also by the next binding, and holds and finds the same. -/
theorem OperatorTable.last_binding_holds (bindings : List Binding) :
    (empty.bindAll bindings).tokens.Nodup ∧
    (empty.bindAll bindings).tokens = (bindings.map (·.token)).eraseDups ∧
    (∀ token, (empty.bindAll bindings).find? token = bindings.findRev? (·.token == token)) ∧
    (empty.bindAll bindings).bindings.length = (bindings.map (·.token)).toFinset.card ∧
    ∃ t, IndexedTable.empty.bindAll? bindings = some t ∧
      t.entries = (empty.bindAll bindings).bindings ∧
      (∀ token, t.find? token = (empty.bindAll bindings).find? token) ∧
      (∀ (token : String) (i : Nat),
        t.index[token]? = some i ↔ ∃ b, t.entries[i]? = some b ∧ b.token = token) ∧
      ∀ b, (t.bind? b).isSome := by
  have hnodup : (empty.bindAll bindings).tokens.Nodup :=
    nodup_tokens_bindAll (t := empty) List.nodup_nil bindings
  have htokens := tokens_bindAll bindings
  refine ⟨hnodup, htokens, find?_bindAll bindings, ?_, ?_⟩
  · have hset : (empty.bindAll bindings).tokens.toFinset = (bindings.map (·.token)).toFinset := by
      ext token
      rw [htokens, List.mem_toFinset, List.mem_toFinset, List.mem_eraseDups]
    rw [← hset, List.toFinset_card_of_nodup hnodup, tokens, List.length_map]
  · obtain ⟨t, ht, hcoherent, htable⟩ := IndexedTable.coherent_empty.exists_bindAll? bindings
    have hempty : IndexedTable.empty.table = empty := rfl
    rw [hempty] at htable
    refine ⟨t, ht, ?_, ?_, hcoherent, ?_⟩
    · rw [← htable]
      rfl
    · intro token
      rw [hcoherent.find?_eq, htable]
    · intro b
      obtain ⟨u, hu, _⟩ := hcoherent.exists_bind? b
      rw [hu]
      rfl

end CertPolicy
