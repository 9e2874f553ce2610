import CertPolicy.Expr.Json
import CertPolicy.Proofs.Json.Documents

/-!
# Policies written and read back

An expression is written as a document, and the text of the document is read back as it. Only the
nesting of arrays and objects matters for that: a decoder goes through as many of them as it has
been told, and to the last one.
-/

namespace CertPolicy
set_option autoImplicit false

namespace Json

mutual

/-- How far arrays and objects are nested in a document. -/
def nesting : Json → Nat
  | .arr items => nestingItems items + 1
  | .obj members => nestingMembers members + 1
  | _ => 0

def nestingItems : List Json → Nat
  | [] => 0
  | j :: js => max (nesting j) (nestingItems js)

def nestingMembers : List (Option String × Json) → Nat
  | [] => 0
  | (_, j) :: ms => max (nesting j) (nestingMembers ms)

end

theorem nesting_variant (tag : String) (j : Json) :
    (object [(tag, j)]).nesting = j.nesting + 1 :=
  congrArg (· + 1) (Nat.max_zero j.nesting)

theorem readsBack_variant (tag : String) {j : Json} (h : j.ReadsBack) :
    (object [(tag, j)]).ReadsBack :=
  readsBack_object (List.forall_mem_singleton.mpr h)

/-! ## Values found in documents -/

theorem variant?_object (tag : String) (j : Json) : variant? (object [(tag, j)]) = some (tag, j) :=
  rfl

theorem tagged?_text {α : Type} [Tagged α] (n : Nat) (a : α) :
    tagged? α n (text (Tagged.tag a)) = some a :=
  Tagged.ofTag?_tag a

theorem find?_keyed {ms : List (String × Json)} (h : (ms.map (·.1)).Nodup) {m : String × Json}
    (hm : m ∈ ms) : (keyed ms).find? (·.1 == some m.1) = some (some m.1, m.2) := by
  induction ms with
  | nil => cases hm
  | cons n ms ih =>
    obtain ⟨hn, hms⟩ := List.nodup_cons.mp h
    rw [keyed, List.map_cons]
    rcases List.mem_cons.mp hm with rfl | hm
    · exact List.find?_cons_of_pos (by simp)
    · have hne : n.1 ≠ m.1 := fun he => hn (List.mem_map.mpr ⟨m, hm, he.symm⟩)
      rw [List.find?_cons_of_neg (by simpa using hne)]
      exact ih hms hm

/-- A record that is written with all its fields is read with all its fields. -/
theorem fields?_object {names : List String} {ms : List (String × Json)}
    (hnames : ms.map (·.1) = names) (h : names.Nodup) :
    fields? names (object ms) = some (ms.map fun m => some m.2) := by
  subst hnames
  have hobject : object ms = obj (keyed ms) := rfl
  have hknown : (keyed ms).filter (fun m => (ms.map (·.1)).any fun name => m.1 == some name) =
      keyed ms := by
    apply List.filter_eq_self.mpr
    intro m hm
    obtain ⟨n, hn, rfl⟩ := List.mem_map.mp hm
    exact List.any_eq_true.mpr ⟨n.1, List.mem_map_of_mem hn, BEq.rfl⟩
  have hall : (keyed ms).all (·.1.isSome) = true := by
    simp [keyed]
  have hnodup : ((keyed ms).map (·.1)).Nodup := by
    have hkeys : (keyed ms).map (·.1) = (ms.map (·.1)).map some := by
      simp [keyed]
    rw [hkeys]
    exact List.Pairwise.map some (fun _ _ hne he => hne (Option.some.inj he)) h
  rw [hobject, fields?]
  simp only [hknown]
  rw [if_pos (by simp only [hall, hnodup, decide_true, Bool.and_self]), List.map_map]
  congr 1
  apply List.map_congr_left
  intro m hm
  rw [Function.comp_apply, find?_keyed h hm, Option.map_some]

end Json

namespace Field

theorem fields?_name (x y z : Json) : Json.fields? ["scope", "required", "attribute"]
    (.object [("scope", x), ("required", y), ("attribute", z)]) =
      some [some x, some y, some z] :=
  Json.fields?_object rfl (by decide)

theorem fields?_extension (x y : Json) : Json.fields? ["required", "identifier"]
    (.object [("required", x), ("identifier", y)]) = some [some x, some y] :=
  Json.fields?_object rfl (by decide)

theorem readsBack_toJson (f : Field) : f.toJson.ReadsBack := by
  cases f with
  | outer | tbs => exact Json.readsBack_variant _ (Json.readsBack_text _)
  | name | extension =>
    apply Json.readsBack_variant
    apply Json.readsBack_object
    simp [Json.readsBack_text, Json.readsBack_bool]

theorem ofJson?_toJson (f : Field) (n : Nat) :
    ofJson? n f.toJson = if f.toJson.nesting ≤ n then some f else none := by
  cases f with
  | outer | tbs =>
    change _ = if 1 ≤ n then _ else _
    cases n with
    | zero => rfl
    | succ n =>
      rw [if_pos (Nat.le_add_left 1 n)]
      simp only [ofJson?, toJson, Json.variant?_object, Json.tagged?_text]
      rfl
  | name | extension =>
    change _ = if 2 ≤ n then _ else _
    match n with
    | 0 | 1 => rfl
    | n + 2 =>
      rw [if_pos (Nat.le_add_left 2 n)]
      simp only [ofJson?, toJson, Json.variant?_object, fields?_name, fields?_extension,
        Json.tagged?_text]
      rfl

end Field

namespace Expr

theorem fields?_operation (x y : Json) : Json.fields? ["operator", "operands"]
    (.object [("operator", x), ("operands", y)]) = some [some x, some y] :=
  Json.fields?_object rfl (by decide)

theorem fields?_literal (x : Json) :
    Json.fields? ["value"] (.object [("value", x)]) = some [some x] :=
  Json.fields?_object rfl (by decide)

mutual

theorem readsBack_toJson : (e : Expr) → e.toJson.ReadsBack
  | .operation _ es => by
    have harr := Json.readsBack_arr (readsBack_toJsonAll es)
    apply Json.readsBack_variant
    apply Json.readsBack_object
    simp [Json.readsBack_text, harr]
  | .literal _ => Json.readsBack_variant _ (Json.readsBack_variant _ (Json.readsBack_text _))
  | .field f => Json.readsBack_variant _ f.readsBack_toJson

theorem readsBack_toJsonAll : (es : List Expr) → ∀ j ∈ toJsonAll es, j.ReadsBack
  | [] => nofun
  | e :: es => List.forall_mem_cons.mpr ⟨readsBack_toJson e, readsBack_toJsonAll es⟩

end

theorem nesting_operation (o : Operator) (es : List Expr) :
    (operation o es).toJson.nesting = Json.nestingItems (toJsonAll es) + 3 := by
  simp [toJson, Json.object, Json.text, Json.nesting, Json.nestingMembers]

theorem nesting_literal (text : String) : (literal text).toJson.nesting = 2 := rfl

theorem nesting_field (f : Field) : (field f).toJson.nesting = f.toJson.nesting + 1 :=
  Json.nesting_variant _ _

mutual

theorem ofJson?_toJson : (e : Expr) → (n : Nat) →
    ofJson? n e.toJson = if e.toJson.nesting ≤ n then some e else none
  | .operation o es, n => by
    rw [nesting_operation]
    match n with
    | 0 | 1 | 2 => rfl
    | n + 3 =>
      have hes := mapM_ofJson?_toJsonAll es n
      simp only [ofJson?, toJson, Json.variant?_object, fields?_operation, Json.tagged?_text, hes,
        Nat.add_le_add_iff_right]
      split <;> rfl
  | .literal text, n => by
    rw [nesting_literal]
    match n with
    | 0 | 1 => rfl
    | n + 2 =>
      rw [if_pos (Nat.le_add_left 2 n)]
      simp only [ofJson?, toJson, Json.variant?_object, fields?_literal]
      rfl
  | .field f, n => by
    rw [nesting_field]
    match n with
    | 0 => rfl
    | n + 1 =>
      simp only [ofJson?, toJson, Json.variant?_object, Field.ofJson?_toJson,
        Nat.add_le_add_iff_right]
      split <;> rfl

theorem mapM_ofJson?_toJsonAll : (es : List Expr) → (n : Nat) →
    (toJsonAll es).mapM (ofJson? n) =
      if Json.nestingItems (toJsonAll es) ≤ n then some es else none
  | [], n => (if_pos (Nat.zero_le n)).symm
  | e :: es, n => by
    rw [toJsonAll, List.mapM_cons, ofJson?_toJson e n, mapM_ofJson?_toJsonAll es n,
      Json.nestingItems]
    by_cases he : e.toJson.nesting ≤ n
    · by_cases hes : Json.nestingItems (toJsonAll es) ≤ n
      · rw [if_pos he, if_pos hes, if_pos (Nat.max_le.mpr ⟨he, hes⟩)]
        rfl
      · rw [if_pos he, if_neg hes, if_neg fun h => hes (Nat.max_le.mp h).2]
        rfl
    · rw [if_neg he, if_neg fun h => he (Nat.max_le.mp h).1]
      rfl

end

theorem toJson_injective {e f : Expr} (h : e.toJson = f.toJson) : e = f := by
  have he := ofJson?_toJson e e.toJson.nesting
  have hf := ofJson?_toJson f f.toJson.nesting
  rw [if_pos (Nat.le_refl _)] at he hf
  rw [h, hf] at he
  exact (Option.some.inj he).symm

/-- Nothing is lost between a document and its text. -/
theorem fromText?_eq_ofJson? (e : Expr) :
    fromText? e.toJson.render = ofJson? Json.nestingLimit e.toJson := by
  rw [fromText?, e.readsBack_toJson.read?_render]
  rfl

/-- The text of an expression is read back as the expression, unless it is nested too deeply to be
read at all; and no other expression has this text. -/
theorem fromText?_render (e : Expr) :
    fromText? e.toJson.render =
        (if e.toJson.nesting ≤ Json.nestingLimit then some e else none) ∧
      ∀ f : Expr, f.toJson.render = e.toJson.render ↔ f = e := by
  refine ⟨?_, fun f => ⟨fun h => ?_, fun h => by rw [h]⟩⟩
  · rw [fromText?_eq_ofJson?, ofJson?_toJson]
  · have hread := f.readsBack_toJson.read?_render
    rw [h, e.readsBack_toJson.read?_render] at hread
    exact toJson_injective (Option.some.inj hread).symm

end Expr
end CertPolicy
