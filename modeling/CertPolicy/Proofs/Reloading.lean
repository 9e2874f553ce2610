import CertPolicy.Dialect
import CertPolicy.Proofs.FlatPolicies
import CertPolicy.Proofs.Machine.Nodes
import CertPolicy.Proofs.NodeCounts
import CertPolicy.Proofs.Persistence
import CertPolicy.Proofs.Respacing

/-!
# Policies that can be reloaded

An operation takes three levels of nesting in a document, and a leaf takes two or three. Operations
may be nested in one another as far as builds may be open at once, which is much further than a
document may be nested: the limits are independent of each other.
-/

namespace CertPolicy
set_option autoImplicit false

namespace Field

theorem nesting_toJson (f : Field) : f.toJson.nesting = 1 ∨ f.toJson.nesting = 2 := by
  cases f with
  | outer | tbs => exact Or.inl rfl
  | name | extension => exact Or.inr rfl

end Field

namespace Expr

mutual

/-- How far operations are nested in an expression. -/
def height : Expr → Nat
  | .operation _ es => heightAll es + 1
  | .literal _ | .field _ => 0

def heightAll : List Expr → Nat
  | [] => 0
  | e :: es => max (height e) (heightAll es)

end

mutual

theorem height_le_operations : (e : Expr) → e.height ≤ e.operations
  | .operation _ es => by
    have hes := heightAll_le_countP es
    rw [height, operations, nodes, List.countP_cons, if_pos (by rfl)]
    omega
  | .literal _ | .field _ => Nat.zero_le _

theorem heightAll_le_countP : (es : List Expr) →
    heightAll es ≤ (nodesAll es).countP (·.operator?.isSome)
  | [] => Nat.zero_le _
  | e :: es => by
    have he := height_le_operations e
    have hes := heightAll_le_countP es
    rw [operations] at he
    rw [heightAll, nodesAll, List.countP_append]
    omega

end

mutual

theorem nesting_le_height : (e : Expr) → e.toJson.nesting ≤ 3 * e.height + 3
  | .operation _ es => by
    have hes := nestingItems_le_height es
    rw [nesting_operation, height]
    omega
  | .literal _ => by
    rw [nesting_literal]
    omega
  | .field f => by
    have hf := f.nesting_toJson
    rw [nesting_field]
    omega

theorem nestingItems_le_height : (es : List Expr) →
    Json.nestingItems (toJsonAll es) ≤ 3 * heightAll es + 3
  | [] => Nat.zero_le _
  | e :: es => by
    have he := nesting_le_height e
    have hes := nestingItems_le_height es
    rw [toJsonAll, Json.nestingItems, heightAll]
    omega

end

mutual

/-- What stands innermost is a leaf if all operations have operands. -/
theorem height_le_nesting : (e : Expr) → (∀ n ∈ e.nodes, ∀ o, n ≠ .operation o []) →
    3 * e.height + 2 ≤ e.toJson.nesting
  | .operation o es, h => by
    rw [nodes, List.forall_mem_cons] at h
    have hne : es ≠ [] := by
      rintro rfl
      exact h.1 o rfl
    have hes := heightAll_le_nesting es h.2 hne
    rw [nesting_operation, height]
    omega
  | .literal _, _ => by
    rw [nesting_literal]
    exact Nat.le_refl 2
  | .field f, _ => by
    have hf := f.nesting_toJson
    rw [nesting_field, height]
    omega

theorem heightAll_le_nesting : (es : List Expr) → (∀ n ∈ nodesAll es, ∀ o, n ≠ .operation o []) →
    es ≠ [] → 3 * heightAll es + 2 ≤ Json.nestingItems (toJsonAll es)
  | [], _, hne => absurd rfl hne
  | [e], h, _ => by
    have he := height_le_nesting e fun n hn => h n (List.mem_append_left _ hn)
    rw [toJsonAll, Json.nestingItems, heightAll, heightAll, Nat.max_zero]
    exact Nat.le_trans he (Nat.le_max_left _ _)
  | e :: f :: es, h, _ => by
    rw [nodesAll, List.forall_mem_append] at h
    have he := height_le_nesting e h.1
    have hes := heightAll_le_nesting (f :: es) h.2 (List.cons_ne_nil f es)
    rw [toJsonAll, Json.nestingItems, heightAll]
    omega

end

theorem nesting_le_limit_iff {e : Expr} (h : ∀ n ∈ e.nodes, ∀ o, n ≠ .operation o []) :
    e.toJson.nesting ≤ Json.nestingLimit ↔ e.height ≤ 41 := by
  have hle := nesting_le_height e
  have hge := height_le_nesting e h
  rw [Json.nestingLimit]
  omega

end Expr

section Build
variable {v : Vocabulary} {o : Options} {tokens : List Token}

/-- No more parentheses close than open, so at the end as many builds are open as operators have
been read. -/
theorem count_operators_lt_of_build {value : Option Expr}
    (h : Expr.build v o tokens = .ok value) :
    Category.operator.count tokens < o.maxRecursion := by
  obtain ⟨hroot, m, hread, _⟩ := Expr.build_eq_ok_iff.mp h
  have hwithin := Machine.within_of_read hroot hread tokens (List.prefix_refl _)
  have hdepth := Machine.depth_of_read hread
  omega

theorem operations_have_operands {e : Expr} (h : Expr.build v o tokens = .ok (some e)) :
    ∀ n ∈ e.nodes, ∀ operator, n ≠ .operation operator [] := by
  have hP : NodeProperty (fun n => ∀ p es, n = .operation p es → es ≠ []) (fun _ => True) := by
    apply NodeProperty.of_operations
    rintro b _ _ hle rfl
    exact Nat.not_lt.mpr hle b.arity.minOperands_pos
  intro n hn operator hoperation
  exact forall_nodes_of_build hP (fun _ _ _ _ _ => trivial) h n hn operator [] hoperation rfl

end Build

/-! ## Chains of negations -/

/-- A literal behind negations, which are as many operators that wait for an operand. -/
def negations (n : Nat) : List Token :=
  List.replicate n ⟨"!", .operator⟩ ++ [⟨"a", .literal⟩]

namespace Expr

def negated : Nat → Expr
  | 0 => .literal "a"
  | n + 1 => .operation .logicalNot [negated n]

theorem height_negated (n : Nat) : (negated n).height = n := by
  induction n with
  | zero => rfl
  | succ n ih => rw [negated, height, heightAll, heightAll, Nat.max_zero, ih]

theorem nesting_negated (n : Nat) : (negated n).toJson.nesting = 3 * n + 2 := by
  induction n with
  | zero => rfl
  | succ n ih =>
    rw [negated, nesting_operation, toJsonAll, toJsonAll, Json.nestingItems, Json.nestingItems,
      Nat.max_zero, ih]
    omega

end Expr

theorem flat_negations (n : Nat) : Flat .standard (negations n) (.negated n) := by
  induction n with
  | zero => exact .leaf (.literal rfl)
  | succ n ih => exact .unary (b := ⟨"!", .logicalNot, .unary⟩) rfl rfl rfl ih

theorem count_negations (n : Nat) : Category.operator.count (negations n) = n := by
  induction n with
  | zero => rfl
  | succ n ih => exact (Category.count_operator_cons rfl _).trans (congrArg (· + 1) ih)

theorem build_negations {n : Nat} (h : n < Options.strict.maxRecursion) :
    Expr.build .standard .strict (negations n) = .ok (some (.negated n)) := by
  apply (flat_negations n).build_eq_ok
  rwa [count_negations]

theorem tokenize_negations (n : Nat) :
    Dialect.standard.tokenize (Token.joined (negations n)) = negations n := by
  have hnot : Vocabulary.standard.reserved.category? ['!'] = some .operator := by
    rw [Vocabulary.category?_reserved]
    decide +kernel
  have ha : Vocabulary.standard.reserved.category? ['a'] = none := by
    rw [Vocabulary.category?_reserved]
    decide +kernel
  have hblank : ∀ c ∈ ['a'], isBlank c = false := List.forall_mem_singleton.mpr rfl
  have hv := Vocabulary.solid_standard
  have hmem : ∀ t ∈ negations n, t = ⟨"!", .operator⟩ ∨ t = ⟨"a", .literal⟩ := by
    intro t ht
    rcases List.mem_append.mp ht with ht | ht
    · exact Or.inl (List.eq_of_mem_replicate ht)
    · exact Or.inr (List.mem_singleton.mp ht)
  apply Token.scan_joined_of_scanned hv
  · intro t ht
    rcases hmem t ht with rfl | rfl
    · exact .word (.first (Reserved.find?_nil_eq_none hv.nonempty) hnot)
    · exact .literal (Trimmed.of_blankless (List.cons_ne_nil 'a' []) hblank)
        (Reserved.find?_singleton hv.nonempty ha) fun _ => hblank
  · intro hsplit
    cases hsplit
  · intro t ht
    rcases hmem t ht with rfl | rfl
    · decide
    · decide

/-- Every number of nested negations that builds allow can be written. -/
theorem parse_negations {n : Nat} (h : n < Options.strict.maxRecursion) :
    Dialect.standard.parse (Token.joined (negations n)) = .ok (some (.negated n)) := by
  rw [Dialect.parse, tokenize_negations]
  exact build_negations h

/-- A policy can be reloaded exactly if its operations are nested at most 41 deep. They may be
nested as far as there are operator tokens, and of these there are fewer than builds may be open. -/
theorem reload_of_parse {d : Dialect} {text : String} {e : Expr}
    (h : d.parse text = .ok (some e)) :
    Expr.fromText? e.toJson.render = (if e.height ≤ 41 then some e else none) ∧
      e.height ≤ Category.operator.count (d.tokenize text) ∧
      Category.operator.count (d.tokenize text) < d.options.maxRecursion := by
  refine ⟨?_, ?_, count_operators_lt_of_build h⟩
  · rw [Expr.fromText?_eq_ofJson?, Expr.ofJson?_toJson]
    simp only [Expr.nesting_le_limit_iff (operations_have_operands h)]
  · exact Nat.le_trans e.height_le_operations (operations_le_of_build h)

theorem reload_negations :
    Dialect.standard.parse (Token.joined (negations 41)) = .ok (some (.negated 41)) ∧
      Expr.fromText? (Expr.negated 41).toJson.render = some (.negated 41) ∧
      41 ≤ Category.operator.count
        (Dialect.standard.tokenize (Token.joined (negations 41))) ∧
      Category.operator.count (Dialect.standard.tokenize (Token.joined (negations 41))) <
        Dialect.standard.options.maxRecursion := by
  have h := parse_negations (show 41 < Options.strict.maxRecursion by decide)
  have hreload := reload_of_parse h
  rw [Expr.height_negated, if_pos (Nat.le_refl 41)] at hreload
  exact ⟨h, hreload⟩

/-- One negation more, and the policy is still accepted but cannot be reloaded. -/
theorem accepted_not_reloaded :
    ¬ ∀ (text : String) (e : Expr), Dialect.standard.parse text = .ok (some e) →
      Expr.fromText? e.toJson.render = some e := by
  intro h
  have hreload := h _ _ (parse_negations (show 42 < Options.strict.maxRecursion by decide))
  rw [Expr.fromText?_eq_ofJson?, Expr.ofJson?_toJson, Expr.nesting_negated,
    if_neg (by decide)] at hreload
  cases hreload

end CertPolicy
