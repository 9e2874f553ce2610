/-!
# Finite types written by tags

`Tagged α` lists the values of a type with finitely many values and gives each one a tag of
its own. Documents and answers write such a value by its tag; `Tagged.ofTag?` reads it back.
-/

namespace CertPolicy
set_option autoImplicit false

/-- A type whose values are listed in `all` and told apart by their tags. -/
class Tagged (α : Type) where
  all : List α
  tag : α → String
  mem_all : ∀ a : α, a ∈ all
  nodup_tags : (all.map tag).Nodup

namespace Tagged
variable {α : Type} [Tagged α]

def ofTag? (text : String) : Option α :=
  all.find? fun a => tag a == text

theorem tag_injective {a b : α} (h : tag a = tag b) : a = b := by
  have go : ∀ l : List α, (l.map tag).Nodup → a ∈ l → b ∈ l → a = b := by
    intro l
    induction l with
    | nil => intro _ ha; cases ha
    | cons c l ih =>
      intro hn ha hb
      obtain ⟨hc, hn⟩ := List.nodup_cons.1 hn
      rcases List.mem_cons.1 ha with rfl | ha' <;> rcases List.mem_cons.1 hb with rfl | hb'
      · rfl
      · exact absurd (h ▸ List.mem_map_of_mem hb') hc
      · exact absurd (h ▸ List.mem_map_of_mem ha') hc
      · exact ih hn ha' hb'
  exact go all nodup_tags (mem_all a) (mem_all b)

@[simp] theorem ofTag?_tag (a : α) : ofTag? (tag a) = some a := by
  cases h : (ofTag? (tag a) : Option α) with
  | none =>
    have := List.find?_eq_none.1 h a (mem_all a)
    simp at this
  | some b =>
    have := List.find?_some h
    rw [tag_injective (beq_iff_eq.1 this)]

theorem ofTag?_eq_some_iff {text : String} {a : α} : ofTag? text = some a ↔ text = tag a := by
  constructor
  · intro h
    have := List.find?_some h
    exact (beq_iff_eq.1 this).symm
  · rintro rfl
    exact ofTag?_tag a

end Tagged
end CertPolicy
