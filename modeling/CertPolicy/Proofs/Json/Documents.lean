import CertPolicy.Proofs.Json.Strings

/-!
# Reading documents back

A document that is written in front of a text is read back, and the text is left. This is proved
for one shape of documents at a time, each from the same fact about its parts.
-/

namespace CertPolicy
set_option autoImplicit false

namespace Json

theorem skip_cons {c : Char} (h : isSpace c = false) (text : List Char) :
    skip (c :: text) = c :: text := by
  rw [skip, List.dropWhile_cons_of_neg (by simp [h])]

theorem length_le_writeText (s : String) (rest : List Char) :
    rest.length + 2 ≤ (writeText (some s) rest).length := by
  simp only [writeText, List.length_cons, List.length_append]
  omega

/-- What is written of a document, in front of any text, is read back as the document. The bound
on nested calls is the one that `read?` sets for the whole text. -/
structure ReadsBack (j : Json) : Prop where
  length_le : ∀ rest, rest.length ≤ (j.write rest).length
  /-- Nothing needs to be skipped, and the document is not taken for the end of an array. -/
  head : ∀ rest, ∃ c cs, j.write rest = c :: cs ∧ isSpace c = false ∧ c ≠ ']'
  value_write : ∀ fuel rest, 2 * (j.write rest).length ≤ fuel →
    value fuel (j.write rest) = some (j, rest)

theorem readsBack_text (s : String) : ReadsBack (text s) where
  length_le rest := Nat.le_trans (Nat.le_add_right _ 2) (length_le_writeText s rest)
  head rest := ⟨'"', _, rfl, rfl, by decide⟩
  value_write fuel rest hfuel := by
    cases fuel with
    | zero => simp [text, write, writeText] at hfuel
    | succ fuel =>
      simp only [text, write, writeText, value]
      rw [skip_cons (by rfl)]
      simp only [readText_escaped, Option.map_some]

theorem readsBack_bool (b : Bool) : ReadsBack (bool b) where
  length_le rest := by
    cases b <;> simp only [write, List.length_cons] <;> omega
  head rest := by
    cases b
    · exact ⟨'f', _, rfl, rfl, by decide⟩
    · exact ⟨'t', _, rfl, rfl, by decide⟩
  value_write fuel rest hfuel := by
    cases fuel with
    | zero => cases b <;> simp [write] at hfuel
    | succ fuel =>
      cases b
      · rw [write, value, skip_cons (by rfl)]
        rfl
      · rw [write, value, skip_cons (by rfl)]
        rfl

/-! ## Arrays -/

theorem length_le_writeItems {js : List Json} (h : ∀ j ∈ js, ReadsBack j) (rest : List Char) :
    rest.length ≤ (writeItems js rest).length := by
  induction js with
  | nil => exact Nat.le_refl _
  | cons j js ih =>
    obtain ⟨hj, hjs⟩ := List.forall_mem_cons.mp h
    cases js with
    | nil => exact hj.length_le rest
    | cons k js =>
      have htail := hj.length_le (',' :: writeItems (k :: js) rest)
      have hrest := ih hjs
      rw [List.length_cons] at htail
      rw [writeItems]
      omega

theorem head_writeItems {j : Json} (js : List Json) (h : ReadsBack j) (rest : List Char) :
    ∃ c cs, writeItems (j :: js) rest = c :: cs ∧ isSpace c = false ∧ c ≠ ']' := by
  cases js with
  | nil => exact h.head rest
  | cons k js => exact h.head (',' :: writeItems (k :: js) rest)

theorem items_last {j : Json} (h : ReadsBack j) {fuel : Nat} {rest : List Char}
    (hfuel : 2 * (j.write (']' :: rest)).length ≤ fuel) :
    items (fuel + 1) (j.write (']' :: rest)) = some ([j], rest) := by
  rw [items, h.value_write fuel _ hfuel]
  simp only [Option.bind_eq_bind, Option.bind_some]
  rw [skip_cons (by rfl)]
  rfl

theorem items_next {j : Json} (h : ReadsBack j) {fuel : Nat} {js : List Json}
    {text rest : List Char} (hfuel : 2 * (j.write (',' :: text)).length ≤ fuel)
    (hjs : items fuel text = some (js, rest)) :
    items (fuel + 1) (j.write (',' :: text)) = some (j :: js, rest) := by
  rw [items, h.value_write fuel _ hfuel]
  simp only [Option.bind_eq_bind, Option.bind_some]
  rw [skip_cons (by rfl)]
  simp only [hjs, Option.bind_some]
  rfl

theorem items_write {j : Json} {js : List Json} (h : ∀ i ∈ j :: js, ReadsBack i) {fuel : Nat}
    (rest : List Char) (hfuel : 2 * (writeItems (j :: js) (']' :: rest)).length < fuel) :
    items fuel (writeItems (j :: js) (']' :: rest)) = some (j :: js, rest) := by
  induction js generalizing j fuel with
  | nil =>
    obtain ⟨fuel, rfl⟩ := Nat.exists_eq_succ_of_ne_zero (Nat.ne_zero_of_lt hfuel)
    exact items_last (h j List.mem_cons_self) (Nat.le_of_lt_succ hfuel)
  | cons k js ih =>
    obtain ⟨fuel, rfl⟩ := Nat.exists_eq_succ_of_ne_zero (Nat.ne_zero_of_lt hfuel)
    obtain ⟨hj, hjs⟩ := List.forall_mem_cons.mp h
    have htail := hj.length_le (',' :: writeItems (k :: js) (']' :: rest))
    rw [writeItems] at hfuel ⊢
    rw [List.length_cons] at htail
    exact items_next hj (Nat.le_of_lt_succ hfuel) (ih hjs (by omega))

theorem readsBack_arr {js : List Json} (h : ∀ j ∈ js, ReadsBack j) : ReadsBack (arr js) where
  length_le rest := by
    have hle := length_le_writeItems h (']' :: rest)
    rw [List.length_cons] at hle
    rw [write, List.length_cons]
    omega
  head rest := ⟨'[', _, rfl, rfl, by decide⟩
  value_write fuel rest hfuel := by
    rw [write, List.length_cons] at hfuel
    obtain ⟨fuel, rfl⟩ := Nat.exists_eq_succ_of_ne_zero (show fuel ≠ 0 by omega)
    rw [write, value, skip_cons (by rfl)]
    cases js with
    | nil =>
      rw [writeItems]
      simp only [skip_cons (show isSpace ']' = false from rfl)]
    | cons j js =>
      obtain ⟨c, cs, hcs, hspace, hend⟩ :=
        head_writeItems js (h j List.mem_cons_self) (']' :: rest)
      have hitems := items_write h rest (show _ < fuel by omega)
      rw [hcs] at hitems
      simp only [hcs]
      rw [skip_cons hspace]
      split
      · rename_i he
        exact absurd (List.cons.inj he).1 hend
      · rw [hitems]
        rfl

/-! ## Objects -/

/-- The members of an object whose keys are texts. -/
def keyed (ms : List (String × Json)) : List (Option String × Json) :=
  ms.map fun m => (some m.1, m.2)

theorem length_le_writeMembers {ms : List (String × Json)} (h : ∀ m ∈ ms, ReadsBack m.2)
    (rest : List Char) : rest.length ≤ (writeMembers (keyed ms) rest).length := by
  induction ms with
  | nil => exact Nat.le_refl _
  | cons m ms ih =>
    obtain ⟨hm, hms⟩ := List.forall_mem_cons.mp h
    cases ms with
    | nil =>
      have hle := hm.length_le rest
      have hkey := length_le_writeText m.1 (':' :: m.2.write rest)
      rw [List.length_cons] at hkey
      simp only [keyed, List.map_cons, List.map_nil, writeMembers]
      omega
    | cons n ms =>
      have hrest := ih hms
      have hle := hm.length_le (',' :: writeMembers (keyed (n :: ms)) rest)
      have hkey := length_le_writeText m.1
        (':' :: m.2.write (',' :: writeMembers (keyed (n :: ms)) rest))
      rw [List.length_cons] at hle hkey
      simp only [keyed, List.map_cons] at hrest hle hkey ⊢
      rw [writeMembers]
      omega

theorem head_writeMembers (m : String × Json) (ms : List (String × Json)) (rest : List Char) :
    ∃ cs, writeMembers (keyed (m :: ms)) rest = '"' :: cs := by
  cases ms with
  | nil => exact ⟨_, rfl⟩
  | cons n ms => exact ⟨_, rfl⟩

theorem members_last {j : Json} (h : ReadsBack j) (key : String) {fuel : Nat}
    {rest : List Char} (hfuel : 2 * (j.write ('\x7d' :: rest)).length ≤ fuel) :
    members (fuel + 1) (writeText (some key) (':' :: j.write ('\x7d' :: rest))) =
      some ([(some key, j)], rest) := by
  rw [writeText, members, skip_cons (by rfl)]
  simp only [readText_escaped, Option.bind_eq_bind, Option.bind_some]
  rw [skip_cons (by rfl)]
  simp only [h.value_write fuel _ hfuel, Option.bind_some]
  rw [skip_cons (by rfl)]
  rfl

theorem members_next {j : Json} (h : ReadsBack j) (key : String) {fuel : Nat}
    {ms : List (Option String × Json)} {text rest : List Char}
    (hfuel : 2 * (j.write (',' :: text)).length ≤ fuel)
    (hms : members fuel text = some (ms, rest)) :
    members (fuel + 1) (writeText (some key) (':' :: j.write (',' :: text))) =
      some ((some key, j) :: ms, rest) := by
  rw [writeText, members, skip_cons (by rfl)]
  simp only [readText_escaped, Option.bind_eq_bind, Option.bind_some]
  rw [skip_cons (by rfl)]
  simp only [h.value_write fuel _ hfuel, Option.bind_some]
  rw [skip_cons (by rfl)]
  simp only [hms, Option.bind_some]
  rfl

theorem members_write {m : String × Json} {ms : List (String × Json)}
    (h : ∀ n ∈ m :: ms, ReadsBack n.2) {fuel : Nat} (rest : List Char)
    (hfuel : 2 * (writeMembers (keyed (m :: ms)) ('\x7d' :: rest)).length < fuel) :
    members fuel (writeMembers (keyed (m :: ms)) ('\x7d' :: rest)) =
      some (keyed (m :: ms), rest) := by
  induction ms generalizing m fuel with
  | nil =>
    obtain ⟨fuel, rfl⟩ := Nat.exists_eq_succ_of_ne_zero (Nat.ne_zero_of_lt hfuel)
    obtain ⟨hm, _⟩ := List.forall_mem_cons.mp h
    have hkey := length_le_writeText m.1 (':' :: m.2.write ('\x7d' :: rest))
    simp only [keyed, List.map_cons, List.map_nil, writeMembers] at hfuel ⊢
    rw [List.length_cons] at hkey
    exact members_last hm m.1 (by omega)
  | cons n ms ih =>
    obtain ⟨fuel, rfl⟩ := Nat.exists_eq_succ_of_ne_zero (Nat.ne_zero_of_lt hfuel)
    obtain ⟨hm, hms⟩ := List.forall_mem_cons.mp h
    have hkey := length_le_writeText m.1
      (':' :: m.2.write (',' :: writeMembers (keyed (n :: ms)) ('\x7d' :: rest)))
    have htail := hm.length_le (',' :: writeMembers (keyed (n :: ms)) ('\x7d' :: rest))
    rw [List.length_cons] at hkey htail
    have hwrite : writeMembers (keyed (m :: n :: ms)) ('\x7d' :: rest) =
        writeText (some m.1)
          (':' :: m.2.write (',' :: writeMembers (keyed (n :: ms)) ('\x7d' :: rest))) := rfl
    rw [hwrite] at hfuel ⊢
    exact members_next hm m.1 (by omega) (ih hms (by omega))

theorem readsBack_object {ms : List (String × Json)} (h : ∀ m ∈ ms, ReadsBack m.2) :
    ReadsBack (object ms) where
  length_le rest := by
    have hle := length_le_writeMembers h ('\x7d' :: rest)
    rw [keyed, List.length_cons] at hle
    rw [object, write, List.length_cons]
    omega
  head rest := ⟨'\x7b', _, rfl, rfl, by decide⟩
  value_write fuel rest hfuel := by
    have hobject : object ms = obj (keyed ms) := rfl
    rw [hobject, write, List.length_cons] at hfuel
    obtain ⟨fuel, rfl⟩ := Nat.exists_eq_succ_of_ne_zero (show fuel ≠ 0 by omega)
    rw [hobject, write, value, skip_cons (by rfl)]
    cases ms with
    | nil =>
      have hspace : isSpace '\x7d' = false := rfl
      simp only [keyed, List.map_nil, writeMembers, skip_cons hspace]
    | cons m ms =>
      obtain ⟨cs, hcs⟩ := head_writeMembers m ms ('\x7d' :: rest)
      have hmembers := members_write h rest (show _ < fuel by omega)
      rw [hcs] at hmembers
      simp only [hcs]
      rw [skip_cons (by rfl)]
      show (members fuel ('"' :: cs)).map _ = _
      rw [hmembers, Option.map_some]

/-! ## Whole documents -/

theorem ReadsBack.read?_render {j : Json} (h : ReadsBack j) : read? j.render = some j := by
  have hvalue := h.value_write (2 * (j.write []).length + 2) [] (Nat.le_add_right _ 2)
  rw [read?, render, String.toList_ofList, hvalue]
  rfl

end Json
end CertPolicy
