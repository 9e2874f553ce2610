import Mathlib.Algebra.GroupWithZero.Nat
import CertPolicy.Proofs.Acceptance
import CertPolicy.Proofs.Grouping
import CertPolicy.Proofs.Machine.Nodes

/-!
# How many operands an operation has

Every operation has the operands that one of its tokens demands (`exists_binding_of_operation`).

An operator takes all that its level has collected, and what stands side by side there has not
been joined yet. So an operation may have more operands than two, and the surplus of all operations
is the number of places where two expressions stand side by side (`operands_of_build`).
-/

namespace CertPolicy
set_option autoImplicit false

namespace Category

/-- A token of the category can be the last one of an expression. -/
def endsExpr : Category → Bool
  | .endLevel | .literal | .reference => true
  | .startLevel | .operator => false

/-- A token of the category can be the first one of an expression that nothing joins to the
expression before it. -/
def beginsExpr : Category → Bool
  | .startLevel | .literal | .reference => true
  | .endLevel | .operator => false

end Category

/-- The number of places where an expression follows another without an operator between them. -/
def sideBySide : List Token → Nat
  | a :: b :: tokens =>
    (if a.category.endsExpr && b.category.beginsExpr then 1 else 0) + sideBySide (b :: tokens)
  | _ => 0

theorem sideBySide_concat (ts : List Token) (t : Token) : sideBySide (ts ++ [t]) =
    sideBySide ts +
      if ts.getLast?.any (·.category.endsExpr) && t.category.beginsExpr then 1 else 0 := by
  induction ts with
  | nil => rfl
  | cons a ts ih =>
    cases ts with
    | nil => simp [sideBySide]
    | cons b ts =>
      rw [List.getLast?_cons_cons, List.cons_append, List.cons_append, sideBySide, sideBySide,
        ← List.cons_append, ih, Nat.add_assoc]

theorem opensBuild_iff {ts : List Token} :
    OpensBuild ts ↔ ts.getLast?.any (·.category.endsExpr) = false := by
  unfold OpensBuild
  cases ts.getLast? with
  | none => simp
  | some t => cases ht : t.category <;> simp [Category.endsExpr, ht]

namespace Expr

/-- The operands beyond the second one that the operations in an expression have. -/
def surplus (e : Expr) : Nat :=
  (e.nodes.map fun n => n.operands.length - 2).sum

def surpluses (es : List Expr) : Nat :=
  (es.map surplus).sum

@[simp] theorem surpluses_nil : surpluses [] = 0 := rfl

@[simp] theorem surpluses_cons (e : Expr) (es : List Expr) :
    surpluses (e :: es) = e.surplus + surpluses es := by
  simp [surpluses]

@[simp] theorem surpluses_append (es fs : List Expr) :
    surpluses (es ++ fs) = surpluses es + surpluses fs := by
  simp [surpluses]

@[simp] theorem surplus_literal (text : String) : (literal text).surplus = 0 := rfl

@[simp] theorem surplus_field (f : Field) : (field f).surplus = 0 := rfl

theorem surplus_operation (operator : Operator) (es : List Expr) :
    (operation operator es).surplus = es.length - 2 + surpluses es := by
  rw [surplus, nodes, List.map_cons, List.sum_cons, operands, nodesAll_eq_flatMap]
  congr 1
  induction es with
  | nil => rfl
  | cons e es ih => simp [surplus, ih]

theorem length_operands_le {e n : Expr} (h : n ∈ e.nodes) : n.operands.length ≤ 2 + e.surplus := by
  obtain ⟨before, after, hnodes⟩ := List.append_of_mem h
  rw [surplus, hnodes, List.map_append, List.map_cons, List.sum_append, List.sum_cons]
  omega

theorem surplus_eq_zero_iff {e : Expr} :
    e.surplus = 0 ↔ ∀ n ∈ e.nodes, n.operands.length ≤ 2 := by
  rw [surplus, List.sum_eq_zero_iff_forall_eq_nat, List.forall_mem_map]
  simp only [Nat.sub_eq_zero_iff_le]

end Expr

namespace Machine
variable {v : Vocabulary} {o : Options} {index : Nat} {t : Token} {m m' : Machine}
variable {tokens : List Token}

/-- The surplus of the frames below a build. What a frame has collected will be operands of one
operation, of which the operand that an operator waits for is another. -/
def surplusBelow (above : Scope) : List Frame → Nat
  | [] => 0
  | f :: below =>
    Expr.surpluses f.pending + (f.pending.length - if above.binding?.isSome then 1 else 0) +
      surplusBelow f.scope below

/-- The surplus of a stack: that of its expressions, and one for each expression that was collected
side by side with another. -/
def surplus (top : Frame) (below : List Frame) : Nat :=
  Expr.surpluses top.pending + (top.pending.length - 1) + surplusBelow top.scope below

/-- Ending a frame keeps the surplus, unless the frame drops siblings or has collected nothing. -/
theorem surplus_close {f g f' : Frame} (below : List Frame) (h : close o index f g = .ok f') :
    surplus f' below ≤ surplus f (g :: below) ∧
      (o.siblings = .reject → f.pending ≠ [] → surplus f' below = surplus f (g :: below)) := by
  obtain ⟨hle, joined, hjoined, rfl⟩ := close_eq_ok_iff.mp h
  rw [deliver_eq_ok_iff] at hjoined
  cases hpending : f.pending with
  | nil =>
    cases hscope : f.scope.binding? with
    | none =>
      simp only [hscope, hpending, List.head?_nil, Option.toList_none, List.append_nil] at hjoined
      simp [surplus, surplusBelow, hscope, hpending, hjoined]
    | some b => simp [hscope, hpending] at hjoined
  | cons e es =>
    have hes : o.siblings = .reject → es = [] := by simpa [hpending] using hle
    cases hscope : f.scope.binding? with
    | none =>
      simp only [hscope, hpending, List.head?_cons, Option.toList_some] at hjoined
      simp only [surplus, surplusBelow, hscope, hpending, hjoined, Expr.surpluses_append,
        Expr.surpluses_cons, Expr.surpluses_nil, List.length_append, List.length_cons,
        List.length_nil, Option.isSome_none, Bool.false_eq_true, if_false]
      refine ⟨by omega, fun hreject _ => ?_⟩
      rw [hes hreject, Expr.surpluses_nil, List.length_nil]
      omega
    | some b =>
      simp only [hscope, hpending, List.head?_cons, Option.some.injEq] at hjoined
      obtain ⟨_, rfl, _, rfl⟩ := hjoined
      simp only [surplus, surplusBelow, hscope, hpending, Binding.combine,
        Expr.surplus_operation, Expr.surpluses_append, Expr.surpluses_cons, Expr.surpluses_nil,
        List.length_append, List.length_cons, List.length_nil, Option.isSome_some, if_true]
      refine ⟨by omega, fun hreject _ => ?_⟩
      rw [hes hreject, Expr.surpluses_nil, List.length_nil]
      omega

/-- The surplus grows by one at a token that begins an expression where another one stands. -/
theorem Step.surplus (h : Step v o index t m m') :
    let sides := if m.top.pending ≠ [] ∧ t.category.beginsExpr then 1 else 0
    surplus m'.top m'.below ≤ surplus m.top m.below + sides ∧
      (o.siblings = .reject →
        surplus m'.top m'.below = surplus m.top m.below + sides) := by
  have hpos : m.top.pending ≠ [] ↔ 0 < m.top.pending.length := List.length_pos_iff.symm
  cases h with
  | startLevel ht =>
    simp only [Machine.surplus, surplusBelow, Scope.binding?, Expr.surpluses_nil, List.length_nil,
      Option.isSome_none, Bool.false_eq_true, if_false, ht, Category.beginsExpr, and_true, hpos]
    split <;> omega
  | endLevel ht hbelow _ hpending hclose =>
    rw [hbelow]
    obtain ⟨hle, heq⟩ := surplus_close _ hclose
    simpa [ht, Category.beginsExpr] using ⟨hle, fun hreject => heq hreject hpending⟩
  | operator ht =>
    simp [Machine.surplus, surplusBelow, Scope.binding?, ht, Category.beginsExpr]
  | literal ht | reference ht =>
    simp only [Machine.surplus, collect, Expr.surpluses_append, Expr.surpluses_cons,
      Expr.surplus_literal, Expr.surplus_field, Expr.surpluses_nil, List.length_append,
      List.length_cons, List.length_nil, ht, Category.beginsExpr, and_true, hpos]
    split <;> omega

theorem surplus_of_read (h : start.read v o 0 tokens = .ok m) :
    surplus m.top m.below ≤ sideBySide tokens ∧
      (o.siblings = .reject → surplus m.top m.below = sideBySide tokens) := by
  induction tokens using List.reverseRecOn generalizing m with
  | nil =>
    cases h
    exact ⟨Nat.le_refl 0, fun _ => rfl⟩
  | append_singleton ts t ih =>
    obtain ⟨n, hread, hstep⟩ := read_concat_eq_ok_iff.mp h
    obtain ⟨hle, heq⟩ := ih hread
    obtain ⟨hstep_le, hstep_eq⟩ := hstep.surplus
    have hsides : (n.top.pending ≠ [] ∧ t.category.beginsExpr = true) ↔
        (ts.getLast?.any (·.category.endsExpr) && t.category.beginsExpr) = true := by
      rw [ne_eq, pending_eq_nil_iff hread, opensBuild_iff, Bool.not_eq_false, Bool.and_eq_true]
    simp only [hsides] at hstep_le hstep_eq
    rw [sideBySide_concat]
    refine ⟨by omega, fun hreject => ?_⟩
    rw [hstep_eq hreject, heq hreject]

theorem surplus_of_unwind {top : Frame} {below : List Frame} {e : Expr}
    (h : unwind o index top below = .ok (some e)) :
    e.surplus ≤ surplus top below ∧
      (o.siblings = .reject → top.pending ≠ [] → e.surplus = surplus top below) := by
  induction below generalizing top with
  | nil =>
    obtain ⟨hle, he⟩ := reduce_eq_ok_iff.mp h
    obtain ⟨es, hpending⟩ := List.head?_eq_some_iff.mp he.symm
    simp only [surplus, surplusBelow, hpending, Expr.surpluses_cons, List.length_cons]
    refine ⟨by omega, fun hreject _ => ?_⟩
    have hes : es = [] := by simpa [hpending] using hle hreject
    simp [hes]
  | cons f below ih =>
    obtain ⟨f', hclose, h⟩ := bind_eq_ok_iff.mp h
    obtain ⟨hle, heq⟩ := ih h
    obtain ⟨hclose_le, hclose_eq⟩ := surplus_close below hclose
    refine ⟨Nat.le_trans hle hclose_le, fun hreject hpending => ?_⟩
    rw [heq hreject (ne_nil_of_close hclose hpending), hclose_eq hreject hpending]

end Machine

section Build
variable {v : Vocabulary} {o : Options} {tokens : List Token} {e : Expr}

theorem surplus_of_build (h : Expr.build v o tokens = .ok (some e)) :
    e.surplus ≤ sideBySide tokens ∧
      (o.siblings = .reject →
        Category.startLevel.count tokens = Category.endLevel.count tokens →
        e.surplus = sideBySide tokens) := by
  obtain ⟨_, m, hread, hfinish⟩ := Expr.build_eq_ok_iff.mp h
  obtain ⟨hunwind, _⟩ := Machine.finish_eq_ok_iff.mp hfinish
  obtain ⟨hread_le, hread_eq⟩ := Machine.surplus_of_read hread
  obtain ⟨hunwind_le, hunwind_eq⟩ := Machine.surplus_of_unwind hunwind
  refine ⟨Nat.le_trans hunwind_le hread_le, fun hreject hlevels => ?_⟩
  have hdepth : m.depth = 0 := by
    have hcount := Machine.depth_of_read hread
    omega
  have hpending := Machine.pending_ne_nil_of_unwind hread hdepth hunwind
  rw [hunwind_eq hreject hpending, hread_eq hreject]

/-- An operator all of whose tokens are binary has two operands at least. -/
theorem two_le_operands_of_build (h : Expr.build v o tokens = .ok (some e)) {operator : Operator}
    (hbinary : ∀ b ∈ v.operators.bindings, b.operator = operator → b.arity = .binary) :
    ∀ n ∈ e.nodes, n.operator? = some operator → 2 ≤ n.operands.length := by
  have hP : NodeProperty (fun n => ∀ p es, n = .operation p es → p = operator → 2 ≤ es.length)
      (· ∈ v.operators.bindings) := by
    apply NodeProperty.of_operations
    intro b es hb hle hoperator
    rwa [Binding.minOperands, hbinary b hb hoperator] at hle
  intro n hn hoperator
  cases n with
  | literal | field => cases hoperator
  | operation p es =>
    apply forall_nodes_of_build hP _ h _ hn p es rfl (Option.some.inj hoperator)
    intro t _ b _ hfind
    exact List.mem_of_find?_eq_some hfind

end Build

/-- Every operation in a policy has the operator of one of the tokens, and at least as many
operands as that token demands. -/
theorem exists_binding_of_operation {v : Vocabulary} {o : Options} {tokens : List Token} {e : Expr}
    (h : Expr.build v o tokens = .ok (some e)) :
    ∀ operator operands, .operation operator operands ∈ e.nodes →
      ∃ t ∈ tokens, t.category = .operator ∧ ∃ b, v.operators.find? t.text = some b ∧
        b.operator = operator ∧ b.minOperands ≤ operands.length := by
  intro operator operands hmem
  have hP : NodeProperty (fun n => ∀ p es, n = .operation p es →
        ∃ t ∈ tokens, t.category = .operator ∧ ∃ b, v.operators.find? t.text = some b ∧
          b.operator = p ∧ b.minOperands ≤ es.length)
      (fun b => ∃ t ∈ tokens, t.category = .operator ∧ v.operators.find? t.text = some b) := by
    apply NodeProperty.of_operations
    rintro b es ⟨t, ht, hcategory, hfind⟩ hle
    exact ⟨t, ht, hcategory, b, hfind, rfl, hle⟩
  apply forall_nodes_of_build hP _ h _ hmem operator operands rfl
  intro t ht b hcategory hfind
  exact ⟨t, ht, hcategory, hfind⟩

/-- Two tokens stand for one operator, and only one of them demands a second operand. -/
theorem exists_binding_of_single_operand :
    Expr.build (.ofTables ⟨[⟨"and", .logicalAnd, .binary⟩, ⟨"all", .logicalAnd, .unary⟩]⟩ .standard)
        .strict [⟨"a", .literal⟩, ⟨"and", .operator⟩, ⟨"all", .operator⟩, ⟨"b", .literal⟩] =
      .ok (some (.operation .logicalAnd [.literal "a", .operation .logicalAnd [.literal "b"]])) ∧
    .operation .logicalAnd [.literal "b"] ∈
      (Expr.operation .logicalAnd [.literal "a", .operation .logicalAnd [.literal "b"]]).nodes ∧
    ∃ t ∈ ([⟨"a", .literal⟩, ⟨"and", .operator⟩, ⟨"all", .operator⟩, ⟨"b", .literal⟩] : List Token),
      t.category = .operator ∧ ∃ b,
        (Vocabulary.ofTables ⟨[⟨"and", .logicalAnd, .binary⟩, ⟨"all", .logicalAnd, .unary⟩]⟩
          .standard).operators.find? t.text = some b ∧
        b.operator = .logicalAnd ∧ b.minOperands ≤ [Expr.literal "b"].length := by
  have h : Expr.build
        (.ofTables ⟨[⟨"and", .logicalAnd, .binary⟩, ⟨"all", .logicalAnd, .unary⟩]⟩ .standard)
        .strict [⟨"a", .literal⟩, ⟨"and", .operator⟩, ⟨"all", .operator⟩, ⟨"b", .literal⟩] =
      .ok (some (.operation .logicalAnd
        [.literal "a", .operation .logicalAnd [.literal "b"]])) := by
    decide +kernel
  have hmem : Expr.operation .logicalAnd [.literal "b"] ∈
      (Expr.operation .logicalAnd [.literal "a", .operation .logicalAnd [.literal "b"]]).nodes := by
    decide +kernel
  exact ⟨h, hmem, exists_binding_of_operation h _ _ hmem⟩

/-- An operation whose operator is always binary has two operands, and more only if expressions
stand side by side. If siblings are rejected and all levels closed, there are as many operands
beyond the second one as such places, and so none exactly if there is no such place. -/
theorem operands_of_build {v : Vocabulary} {o : Options} {tokens : List Token} {e : Expr}
    (h : Expr.build v o tokens = .ok (some e)) :
    (∀ operator, (∀ b ∈ v.operators.bindings, b.operator = operator → b.arity = .binary) →
      ∀ n ∈ e.nodes, n.operator? = some operator →
        2 ≤ n.operands.length ∧ n.operands.length ≤ 2 + sideBySide tokens) ∧
    (o.siblings = .reject → Category.startLevel.count tokens = Category.endLevel.count tokens →
      e.surplus = sideBySide tokens ∧
        ((∀ n ∈ e.nodes, n.operands.length ≤ 2) ↔ sideBySide tokens = 0)) := by
  obtain ⟨hle, heq⟩ := surplus_of_build h
  constructor
  · intro operator hbinary n hn hoperator
    refine ⟨two_le_operands_of_build h hbinary n hn hoperator, ?_⟩
    exact Nat.le_trans (Expr.length_operands_le hn) (Nat.add_le_add_left hle 2)
  · intro hreject hlevels
    have hsurplus := heq hreject hlevels
    refine ⟨hsurplus, ?_⟩
    rw [← hsurplus, Expr.surplus_eq_zero_iff]

/-- In front of the operator stand a literal and a group, and nothing joins them. -/
theorem operands_beside_group :
    Expr.build .standard .strict [⟨"a", .literal⟩, ⟨"(", .startLevel⟩, ⟨"b", .literal⟩,
        ⟨")", .endLevel⟩, ⟨"=", .operator⟩, ⟨"c", .literal⟩] =
      .ok (some (.operation .equals [.literal "a", .literal "b", .literal "c"])) ∧
    (2 ≤ 3 ∧ 3 ≤ 2 + sideBySide [⟨"a", .literal⟩, ⟨"(", .startLevel⟩, ⟨"b", .literal⟩,
        ⟨")", .endLevel⟩, ⟨"=", .operator⟩, ⟨"c", .literal⟩]) ∧
    (Expr.operation .equals [.literal "a", .literal "b", .literal "c"]).surplus =
      sideBySide [⟨"a", .literal⟩, ⟨"(", .startLevel⟩, ⟨"b", .literal⟩, ⟨")", .endLevel⟩,
        ⟨"=", .operator⟩, ⟨"c", .literal⟩] := by
  have h : Expr.build .standard .strict [⟨"a", .literal⟩, ⟨"(", .startLevel⟩, ⟨"b", .literal⟩,
        ⟨")", .endLevel⟩, ⟨"=", .operator⟩, ⟨"c", .literal⟩] =
      .ok (some (.operation .equals [.literal "a", .literal "b", .literal "c"])) := by
    decide +kernel
  refine ⟨h, ?_, ?_⟩
  · exact (operands_of_build h).1 .equals (by decide +kernel) _ (Expr.mem_nodes_self _) rfl
  · exact ((operands_of_build h).2 rfl (by decide)).1

/-- An operator that is always binary may have three operands. -/
theorem binary_with_three_operands :
    ¬ ∀ (v : Vocabulary) (o : Options) (tokens : List Token) (e : Expr) (operator : Operator),
      o.siblings = .reject → Expr.build v o tokens = .ok (some e) →
      (∀ b ∈ v.operators.bindings, b.operator = operator → b.arity = .binary) →
      ∀ n ∈ e.nodes, n.operator? = some operator → n.operands.length ≤ 2 := by
  intro h
  have hle := h .standard .strict [⟨"a", .literal⟩, ⟨"b", .literal⟩, ⟨"=", .operator⟩,
    ⟨"c", .literal⟩] (.operation .equals [.literal "a", .literal "b", .literal "c"]) .equals rfl
    (by decide +kernel) (by decide +kernel) _ (Expr.mem_nodes_self _) rfl
  revert hle
  decide

end CertPolicy
