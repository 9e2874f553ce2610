import CertPolicy.Proofs.Machine.Counters
import CertPolicy.Proofs.Machine.Errors

/-!
# Policies without parentheses

Operators have no precedence: each one takes the leaf in front of it, if it is binary, and all that
follows it as its operand. `Flat` is the grammar of such policies with their trees. The operand of
an operator is read in a build of its own inside all the others, so a policy with `n` operators
needs `n + 1` builds and no more.
-/

namespace CertPolicy
set_option autoImplicit false

/-- A token that stands for a leaf by itself. -/
inductive Token.Leaf (v : Vocabulary) (t : Token) : Expr → Prop
  | literal (ht : t.category = .literal) : Leaf v t (.literal t.text)
  | reference {f : Field} (ht : t.category = .reference)
      (hf : v.fields.resolveRequired t.text = .ok f) : Leaf v t (.field f)

theorem Token.Leaf.count_operator {v : Vocabulary} {t : Token} {e : Expr} (h : t.Leaf v e) :
    Category.operator.count [t] = 0 := by
  cases h with
  | literal ht | reference ht => simp [ht]

theorem Category.count_operator_cons {op : Token} (hop : op.category = .operator)
    (rest : List Token) : operator.count (op :: rest) = operator.count rest + 1 := by
  rw [count_cons, count_singleton, if_pos hop, Nat.add_comm]

/-- The policies that are written without parentheses and with nothing side by side, and the tree
of each. -/
inductive Flat (v : Vocabulary) : List Token → Expr → Prop
  | leaf {t : Token} {e : Expr} (ht : t.Leaf v e) : Flat v [t] e
  | binary {t op : Token} {rest : List Token} {b : Binding} {left right : Expr}
      (ht : t.Leaf v left) (hop : op.category = .operator)
      (hb : v.operators.find? op.text = some b) (harity : b.arity = .binary)
      (hrest : Flat v rest right) :
      Flat v (t :: op :: rest) (.operation b.operator [left, right])
  | unary {op : Token} {rest : List Token} {b : Binding} {operand : Expr}
      (hop : op.category = .operator) (hb : v.operators.find? op.text = some b)
      (harity : b.arity = .unary) (hrest : Flat v rest operand) :
      Flat v (op :: rest) (.operation b.operator [operand])

namespace Machine
variable {v : Vocabulary} {o : Options} {index : Nat} {t op : Token} {rest tokens : List Token}
variable {m m' n : Machine} {b : Binding} {e : Expr}

/-- Wherever the policy ends, the two machines end alike. -/
structure EndsLike (o : Options) (m n : Machine) : Prop where
  depth : m.depth = n.depth
  unwind : ∀ index, Machine.unwind o index m.top m.below = Machine.unwind o index n.top n.below

theorem EndsLike.trans {k : Machine} (h : m.EndsLike o n) (h' : n.EndsLike o k) :
    m.EndsLike o k :=
  ⟨h.depth.trans h'.depth, fun index => (h.unwind index).trans (h'.unwind index)⟩

theorem EndsLike.finish_eq (h : m.EndsLike o n) (index : Nat) :
    m.finish o index = n.finish o index := by
  rw [finish, finish, h.unwind, h.depth]

/-- A build for the operand of an operator, inside all builds that are open. -/
def await (m : Machine) (b : Binding) (index : Nat) : Machine :=
  ⟨⟨.operand b index, []⟩, m.top :: m.below, m.depth⟩

@[simp] theorem builds_await (place : Nat) : (m.await b place).builds = m.builds + 1 := rfl

@[simp] theorem builds_collect : (m.collect e).builds = m.builds := rfl

theorem endsLike_await (place : Nat) (h : b.minOperands ≤ m.top.pending.length + 1) :
    ((m.await b place).collect e).EndsLike o
      { m with top := { m.top with pending := [b.combine (m.top.pending ++ [e])] } } := by
  refine ⟨rfl, fun index => ?_⟩
  rw [collect, await, unwind, close_operand rfl rfl h, ok_bind]

theorem Step.leaf (h : t.Leaf v e) : Step v o index t m (m.collect e) := by
  cases h with
  | literal ht => exact .literal ht
  | reference ht hf => exact .reference ht hf

/-- If the operand of an operator is read like one expression, then so are the operator, its operand
and what stands in front of them. -/
theorem read_operator (hop : op.category = .operator) (hb : v.operators.find? op.text = some b)
    (htake : b.minOperands ≤ m.top.pending.length + 1) (hroom : m.builds + 1 ≤ o.maxRecursion)
    (hread : (m.await b index).read v o (index + 1) rest = .ok m')
    (hends : m'.EndsLike o ((m.await b index).collect e)) :
    m.read v o index (op :: rest) = .ok m' ∧
      m'.EndsLike o { m with top :=
        { m.top with pending := [b.combine (m.top.pending ++ [e])] } } := by
  constructor
  · apply read_cons_eq_ok_iff.mpr
    exact ⟨_, .operator hop hb hroom, hread⟩
  · exact hends.trans (endsLike_await index htake)

/-- Where nothing has been collected, a flat policy is read like a single leaf. -/
theorem exists_read_flat (h : Flat v tokens e) (index : Nat) (hpending : m.top.pending = [])
    (hroom : m.builds + Category.operator.count tokens ≤ o.maxRecursion) :
    ∃ m', m.read v o index tokens = .ok m' ∧ m'.EndsLike o (m.collect e) := by
  -- The operand of an operator is read in a build that has collected nothing, as the induction
  -- asks.
  induction h generalizing m index with
  | leaf ht =>
    refine ⟨_, ?_, rfl, fun _ => rfl⟩
    exact read_cons_eq_ok_iff.mpr ⟨_, Step.leaf ht, rfl⟩
  | @binary t op rest b left right ht hop hb harity _ ih =>
    rw [Category.count_cons, ht.count_operator, Category.count_operator_cons hop] at hroom
    have hleft : b.minOperands ≤ (m.collect left).top.pending.length + 1 := by
      apply Binding.minOperands_le_iff.mpr
      intro _
      simp [collect]
    obtain ⟨m', hread, hends⟩ := @ih ((m.collect left).await b (index + 1)) (index + 1 + 1) rfl
      (by rw [builds_await, builds_collect]; omega)
    obtain ⟨hread', hends'⟩ :=
      read_operator hop hb hleft (by rw [builds_collect]; omega) hread hends
    refine ⟨m', read_cons_eq_ok_iff.mpr ⟨_, Step.leaf ht, hread'⟩, ?_⟩
    simpa [collect, hpending, Binding.combine] using hends'
  | @unary op rest b operand hop hb harity _ ih =>
    rw [Category.count_operator_cons hop] at hroom
    have hnone : b.minOperands ≤ m.top.pending.length + 1 := by
      apply Binding.minOperands_le_iff.mpr
      simp [harity]
    obtain ⟨m', hread, hends⟩ := @ih (m.await b index) (index + 1) rfl
      (by rw [builds_await]; omega)
    obtain ⟨hread', hends'⟩ := read_operator hop hb hnone (by omega) hread hends
    refine ⟨m', hread', ?_⟩
    simpa [collect, hpending, Binding.combine] using hends'

/-- An operator for which no further build may be opened is too deep, and else its operand may
be. -/
theorem exists_read_operator_error (hop : op.category = .operator)
    (hb : v.operators.find? op.text = some b)
    (hrest : m.builds + 1 ≤ o.maxRecursion → ∃ i, (m.await b index).read v o (index + 1) rest =
      .error (.grammar (.buildsTooDeep o.maxRecursion i))) :
    ∃ i, m.read v o index (op :: rest) =
      .error (.grammar (.buildsTooDeep o.maxRecursion i)) := by
  by_cases hroom : m.builds + 1 ≤ o.maxRecursion
  · obtain ⟨i, hi⟩ := hrest hroom
    refine ⟨i, bind_eq_error_iff.mpr (Or.inr ⟨_, ?_, hi⟩)⟩
    exact step_eq_ok_iff.mpr (.operator hop hb hroom)
  · refine ⟨index, bind_eq_error_iff.mpr (Or.inl ?_)⟩
    simp only [step, hop, hb]
    exact enter_eq_error_iff.mpr ⟨Nat.lt_of_not_le hroom, rfl⟩

/-- A flat policy is too deep if its operators, with the builds that are open around it, are more
builds than may be open. -/
theorem exists_read_flat_error (h : Flat v tokens e) (index : Nat)
    (hroom : m.builds ≤ o.maxRecursion)
    (hexceeds : o.maxRecursion < m.builds + Category.operator.count tokens) :
    ∃ i, m.read v o index tokens = .error (.grammar (.buildsTooDeep o.maxRecursion i)) := by
  induction h generalizing m index with
  | leaf ht =>
    rw [ht.count_operator] at hexceeds
    omega
  | @binary t op rest b left right ht hop hb _ _ ih =>
    rw [Category.count_cons, ht.count_operator, Category.count_operator_cons hop] at hexceeds
    have hrest : ∃ i, (m.collect left).read v o (index + 1) (op :: rest) =
        .error (.grammar (.buildsTooDeep o.maxRecursion i)) := by
      apply exists_read_operator_error hop hb
      intro hroom'
      apply ih
      · exact hroom'
      · rw [builds_await, builds_collect]
        omega
    obtain ⟨i, hi⟩ := hrest
    refine ⟨i, bind_eq_error_iff.mpr (Or.inr ⟨_, ?_, hi⟩)⟩
    exact step_eq_ok_iff.mpr (Step.leaf ht)
  | @unary op rest b operand hop hb _ _ ih =>
    rw [Category.count_operator_cons hop] at hexceeds
    apply exists_read_operator_error hop hb
    intro hroom'
    apply ih
    · exact hroom'
    · rw [builds_await]
      omega

end Machine

section Build
variable {v : Vocabulary} {o : Options} {tokens : List Token} {e : Expr}

theorem Flat.build_eq_ok (h : Flat v tokens e)
    (hroom : Category.operator.count tokens + 1 ≤ o.maxRecursion) :
    Expr.build v o tokens = .ok (some e) := by
  have hstart : Machine.start.builds + Category.operator.count tokens ≤ o.maxRecursion := by
    rwa [Nat.add_comm]
  obtain ⟨m, hread, hends⟩ := Machine.exists_read_flat h 0 (m := Machine.start) rfl hstart
  apply Expr.build_eq_ok_iff.mpr
  refine ⟨Nat.le_trans (Nat.le_add_left 1 _) hroom, m, hread, ?_⟩
  rw [hends.finish_eq, Machine.finish_eq_ok_iff]
  constructor
  · exact reduce_eq_ok_iff.mpr ⟨fun _ => Nat.le_refl 1, rfl⟩
  · exact fun _ => rfl

theorem Flat.build_eq_error (h : Flat v tokens e)
    (hexceeds : o.maxRecursion ≤ Category.operator.count tokens) :
    ∃ index, Expr.build v o tokens =
      .error (.grammar (.buildsTooDeep o.maxRecursion index)) := by
  by_cases hroom : 1 ≤ o.maxRecursion
  · have hstart : o.maxRecursion < Machine.start.builds + Category.operator.count tokens := by
      rw [Nat.add_comm]
      exact Nat.lt_succ_of_le hexceeds
    obtain ⟨i, hi⟩ := Machine.exists_read_flat_error h 0 (m := Machine.start) hroom hstart
    refine ⟨i, ?_⟩
    rw [Expr.build_eq_run hroom, Machine.run, hi, error_bind]
  · refine ⟨0, ?_⟩
    rw [Expr.build, if_pos (Nat.lt_of_not_le hroom)]

end Build

/-- A policy without parentheses nests to the right, under all options that allow one build more
than it has operators; under all others it is too deep. -/
theorem build_flat {v : Vocabulary} {tokens : List Token} {e : Expr} (h : Flat v tokens e)
    (o : Options) :
    (Category.operator.count tokens + 1 ≤ o.maxRecursion →
      Expr.build v o tokens = .ok (some e)) ∧
    (o.maxRecursion ≤ Category.operator.count tokens →
      ∃ index, Expr.build v o tokens =
        .error (.grammar (.buildsTooDeep o.maxRecursion index))) :=
  ⟨h.build_eq_ok, h.build_eq_error⟩

/-- The negation takes the whole conjunction behind it. -/
theorem build_flat_negation :
    Flat .standard [⟨"a", .literal⟩, ⟨"=", .operator⟩, ⟨"!", .operator⟩, ⟨"b", .literal⟩,
        ⟨"&&", .operator⟩, ⟨"c", .literal⟩]
      (.operation .equals [.literal "a",
        .operation .logicalNot [.operation .logicalAnd [.literal "b", .literal "c"]]]) ∧
    Expr.build .standard { Options.strict with maxRecursion := 4 } [⟨"a", .literal⟩,
        ⟨"=", .operator⟩, ⟨"!", .operator⟩, ⟨"b", .literal⟩, ⟨"&&", .operator⟩,
        ⟨"c", .literal⟩] =
      .ok (some (.operation .equals [.literal "a",
        .operation .logicalNot [.operation .logicalAnd [.literal "b", .literal "c"]]])) ∧
    ∃ index, Expr.build .standard { Options.strict with maxRecursion := 3 } [⟨"a", .literal⟩,
        ⟨"=", .operator⟩, ⟨"!", .operator⟩, ⟨"b", .literal⟩, ⟨"&&", .operator⟩,
        ⟨"c", .literal⟩] = .error (.grammar (.buildsTooDeep 3 index)) := by
  have h : Flat .standard [⟨"a", .literal⟩, ⟨"=", .operator⟩, ⟨"!", .operator⟩, ⟨"b", .literal⟩,
        ⟨"&&", .operator⟩, ⟨"c", .literal⟩]
      (.operation .equals [.literal "a",
        .operation .logicalNot [.operation .logicalAnd [.literal "b", .literal "c"]]]) := by
    apply Flat.binary (b := ⟨"=", .equals, .binary⟩) (.literal rfl) rfl rfl rfl
    apply Flat.unary (b := ⟨"!", .logicalNot, .unary⟩) rfl rfl rfl
    apply Flat.binary (b := ⟨"&&", .logicalAnd, .binary⟩) (.literal rfl) rfl rfl rfl
    exact .leaf (.literal rfl)
  refine ⟨h, ?_, ?_⟩
  · exact (build_flat h _).1 (Nat.le_refl 4)
  · exact (build_flat h { Options.strict with maxRecursion := 3 }).2 (Nat.le_refl 3)

end CertPolicy
