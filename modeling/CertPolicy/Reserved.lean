import CertPolicy.FieldTable
import CertPolicy.OperatorTable
import CertPolicy.Text.Utf8
import CertPolicy.Token

/-!
# Reserved words

The reserved words of a vocabulary are the two parentheses, the operator tokens and the
reference tokens. A word that is several of these is a reference first, an operator next.

The words are kept in a fixed order, longest first by bytes of UTF-8 and then by bytes, so the
first word of the list that begins a text is the longest one that does. `Reserved.find?` looks
for the earliest place in a text where a reserved word stands.
-/

namespace CertPolicy
set_option autoImplicit false

structure Word where
  text : List Char
  category : Category
  deriving DecidableEq, Repr

namespace Word

def size (w : Word) : Nat :=
  Utf8.size w.text

def bytes (w : Word) : List UInt8 :=
  Utf8.encode w.text

theorem length_bytes (w : Word) : w.bytes.length = w.size :=
  Utf8.length_encode w.text

/-- Whether a word stands before another: a longer word before a shorter one, and words of one
length in the order of their bytes. -/
def precedes (v w : Word) : Bool :=
  decide (w.size < v.size) || (v.size == w.size && decide (v.bytes < w.bytes))

end Word

structure Reserved where
  words : List Word
  deriving DecidableEq, Repr

structure Occurrence where
  before : List Char
  word : Word
  /-- The text from the first character of the word on. -/
  rest : List Char
  deriving DecidableEq, Repr

def Occurrence.offset (o : Occurrence) : Nat :=
  Utf8.size o.before

namespace Reserved

/-- Puts a word in its place in a list of words; a word with the same text gives way to it. -/
def place (w : Word) : List Word → List Word
  | [] => [w]
  | v :: words =>
    if v.text = w.text then w :: words
    else if w.precedes v then w :: v :: words
    else v :: place w words

/-- Reserves a word. If its text is reserved already, only the category changes. -/
def insert (r : Reserved) (w : Word) : Reserved :=
  ⟨place w r.words⟩

def insertAll (r : Reserved) (texts : List String) (category : Category) : Reserved :=
  texts.foldl (fun r text => r.insert ⟨text.toList, category⟩) r

def levels : Reserved :=
  ⟨[⟨['('], .startLevel⟩, ⟨[')'], .endLevel⟩]⟩

def ofTables (operators : OperatorTable) (fields : FieldTable) : Reserved :=
  (levels.insertAll (operators.bindings.map (·.token)) .operator).insertAll
    fields.referenceTokens .reference

def category? (r : Reserved) (text : List Char) : Option Category :=
  (r.words.find? (·.text == text)).map (·.category)

/-- The longest reserved word that a text begins with. -/
def wordAt? (r : Reserved) (text : List Char) : Option Word :=
  r.words.find? (·.text.isPrefixOf text)

def initials (r : Reserved) : List Char :=
  (r.words.filterMap (·.text.head?)).eraseDups

/-- The earliest place where a reserved word stands, if all of them begin with one of the
given characters: only there is it worth trying the words. -/
def findAmong? (r : Reserved) (initials : List Char) : List Char → Option Occurrence
  | [] => none
  | c :: rest =>
    match if initials.contains c then r.wordAt? (c :: rest) else none with
    | some w => some ⟨[], w, c :: rest⟩
    | none => (r.findAmong? initials rest).map fun o => { o with before := c :: o.before }

/-- The earliest place where a reserved word stands, and the longest word there. The empty
word, if it is reserved, stands at the very beginning even of the empty text. -/
def find? (r : Reserved) (text : List Char) : Option Occurrence :=
  match r.wordAt? text with
  | some w => some ⟨[], w, text⟩
  | none => r.findAmong? r.initials text

theorem wordAt?_eq_none_of_notMem_initials {r : Reserved} {c : Char} {rest : List Char}
    (hc : c ∉ r.initials) (he : r.wordAt? [] = none) : r.wordAt? (c :: rest) = none := by
  rw [wordAt?, List.find?_eq_none] at he ⊢
  intro w hw hp
  cases ht : w.text with
  | nil => exact he w hw (by simp [ht])
  | cons d _ =>
    refine hc ?_
    rw [ht, List.isPrefixOf_cons_cons, Bool.and_eq_true, beq_iff_eq] at hp
    rw [initials, List.mem_eraseDups, List.mem_filterMap]
    exact ⟨w, hw, by rw [ht, ← hp.1]; rfl⟩

theorem find?_nil (r : Reserved) :
    r.find? [] = (r.wordAt? []).map fun w => ⟨[], w, []⟩ := by
  unfold find?
  cases r.wordAt? [] <;> rfl

theorem wordAt?_nil_eq_none {r : Reserved} {text : List Char} (h : r.wordAt? text = none) :
    r.wordAt? [] = none := by
  rw [wordAt?, List.find?_eq_none] at h ⊢
  intro w hw hp
  cases ht : w.text with
  | nil => exact h w hw (by simp [ht])
  | cons => simp [ht] at hp

theorem findAmong?_initials {r : Reserved} (he : r.wordAt? [] = none) (text : List Char) :
    r.findAmong? r.initials text = r.find? text := by
  cases text with
  | nil => simp [find?_nil, findAmong?, he]
  | cons c rest =>
    unfold find?
    cases h : r.wordAt? (c :: rest) with
    | none => rfl
    | some w =>
      by_cases hc : c ∈ r.initials
      · simp [findAmong?, hc, h]
      · simp [wordAt?_eq_none_of_notMem_initials hc he] at h

/-- A search tries the words at the beginning of the text, and then goes on behind its first
character. -/
theorem find?_cons (r : Reserved) (c : Char) (rest : List Char) :
    r.find? (c :: rest) =
      match r.wordAt? (c :: rest) with
      | some w => some ⟨[], w, c :: rest⟩
      | none => (r.find? rest).map fun o => { o with before := c :: o.before } := by
  rw [find?]
  cases h : r.wordAt? (c :: rest) with
  | some w => rfl
  | none =>
    rw [findAmong?, h, ite_self, findAmong?_initials (wordAt?_nil_eq_none h)]

/-- An occurrence splits the text in two. -/
theorem before_append_rest {r : Reserved} {text : List Char} {o : Occurrence}
    (h : r.find? text = some o) : o.before ++ o.rest = text := by
  induction text generalizing o with
  | nil =>
    rw [find?_nil] at h
    obtain ⟨w, _, rfl⟩ := Option.map_eq_some_iff.1 h
    rfl
  | cons c rest ih =>
    rw [find?_cons] at h
    split at h
    · obtain rfl := Option.some.inj h
      rfl
    · obtain ⟨p, hp, rfl⟩ := Option.map_eq_some_iff.1 h
      simpa using ih hp

/-- Looking up an inserted word gives its category; the other words are as before. -/
theorem category?_insert (r : Reserved) (w : Word) (text : List Char) :
    (r.insert w).category? text = if w.text = text then some w.category else r.category? text := by
  obtain ⟨words⟩ := r
  induction words with
  | nil => by_cases h : w.text = text <;> simp [insert, place, category?, h]
  | cons v words ih =>
    simp only [insert, category?] at ih ⊢
    unfold place
    split
    · rename_i hv
      by_cases h : w.text = text <;> simp [h, hv]
    · rename_i hv
      split
      · by_cases h : w.text = text <;> simp [List.find?_cons, h]
      · by_cases h : w.text = text
        · subst h
          simpa [List.find?_cons, hv] using ih
        · simp only [h, if_false] at ih ⊢
          simp only [List.find?_cons]
          split <;> simp_all

end Reserved
end CertPolicy
