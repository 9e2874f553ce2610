import Mathlib.Data.List.Perm.Basic
import CertPolicy.Proofs.Machine.Counters
import CertPolicy.Proofs.Spelling

/-!
# Nodes and tokens

The marks that a policy is spelled with are its nodes in another order, and each token that is no
parenthesis has one mark. A policy therefore has at most as many nodes as there are such tokens,
and no more operations than operator tokens.
-/

namespace CertPolicy
set_option autoImplicit false

namespace Expr

/-- What a node is by itself, without its operands. -/
def mark : Expr → Mark
  | .literal text => .literal text
  | .field f => .field f
  | .operation operator _ => .operator operator

mutual

theorem spelling_perm : (e : Expr) → e.spelling.Perm (e.nodes.map mark)
  | .literal _ => List.Perm.refl _
  | .field _ => List.Perm.refl _
  | .operation operator es => spellingInfix_perm operator es

theorem spellingInfix_perm (operator : Operator) : (es : List Expr) →
    (spellingInfix operator es).Perm (.operator operator :: (nodesAll es).map mark)
  | [] => List.Perm.refl _
  | [e] => by
    rw [spellingInfix, nodesAll, nodesAll, List.append_nil]
    exact (spelling_perm e).cons _
  | e :: f :: es => by
    rw [spellingInfix, nodesAll, List.map_append]
    exact ((spelling_perm e).append (spellingInfix_perm operator (f :: es))).trans
      List.perm_middle

end

theorem length_spelling (e : Expr) : e.spelling.length = e.nodes.length := by
  rw [(spelling_perm e).length_eq, List.length_map]

theorem spelling_ne_nil (e : Expr) : e.spelling ≠ [] := by
  apply List.ne_nil_of_length_pos
  rw [length_spelling]
  exact List.length_pos_of_mem (mem_nodes_self e)

theorem length_spellings (es : List Expr) :
    (spellings es).length = (es.flatMap nodes).length := by
  simp only [spellings, List.length_flatMap, length_spelling]

/-- The number of operations in an expression, itself included. -/
def operations (e : Expr) : Nat :=
  e.nodes.countP (·.operator?.isSome)

end Expr

def Mark.isOperator : Mark → Bool
  | .operator _ => true
  | .literal _ | .field _ => false

theorem Expr.countP_spelling (e : Expr) : e.spelling.countP Mark.isOperator = e.operations := by
  rw [(spelling_perm e).countP_eq, List.countP_map, operations]
  apply List.countP_congr
  intro n _
  cases n <;> simp [mark, Mark.isOperator, operator?]

/-- The tokens that are no parentheses. -/
def bareTokens (tokens : List Token) : List Token :=
  tokens.filter fun t => t.category ≠ .startLevel ∧ t.category ≠ .endLevel

theorem Token.isOperator_mark {v : Vocabulary} {t : Token} {m : Mark} (h : t.mark? v = some m) :
    m.isOperator = decide (t.category = .operator) := by
  unfold mark? at h
  cases ht : t.category with
  | startLevel | endLevel => simp [ht] at h
  | operator =>
    simp only [ht, Option.map_eq_some_iff] at h
    obtain ⟨b, _, rfl⟩ := h
    rfl
  | literal =>
    simp only [ht, Option.some.injEq] at h
    subst h
    rfl
  | reference =>
    simp only [ht, Option.map_eq_some_iff] at h
    obtain ⟨f, _, rfl⟩ := h
    rfl

theorem counts_of_mapM_mark? {v : Vocabulary} {tokens : List Token} {ms : List Mark}
    (h : tokens.mapM (·.mark? v) = some ms) :
    ms.length = tokens.length ∧ ms.countP Mark.isOperator = Category.operator.count tokens := by
  induction tokens generalizing ms with
  | nil =>
    cases h
    exact ⟨rfl, rfl⟩
  | cons t tokens ih =>
    simp only [List.mapM_cons, Option.bind_eq_bind, Option.bind_eq_some_iff, Option.pure_def,
      Option.some.injEq] at h
    obtain ⟨m, hm, ns, hns, rfl⟩ := h
    obtain ⟨hlength, hcount⟩ := ih hns
    refine ⟨by simp [hlength], ?_⟩
    rw [Category.count_cons, List.countP_cons, hcount, Token.isOperator_mark hm,
      Category.count_singleton]
    simp only [decide_eq_true_eq]
    exact Nat.add_comm _ _

theorem length_of_marks? {v : Vocabulary} {tokens : List Token} {ms : List Mark}
    (h : marks? v tokens = some ms) : ms.length = (bareTokens tokens).length :=
  (counts_of_mapM_mark? h).1

theorem countP_of_marks? {v : Vocabulary} {tokens : List Token} {ms : List Mark}
    (h : marks? v tokens = some ms) :
    ms.countP Mark.isOperator = Category.operator.count tokens := by
  rw [(counts_of_mapM_mark? h).2, Category.count, Category.count, List.countP_filter]
  apply List.countP_congr
  intro t _
  cases t.category <;> simp

section Build
variable {v : Vocabulary} {o : Options} {tokens : List Token} {value : Option Expr}

theorem keeps_of_build (h : Expr.build v o tokens = .ok value) :
    ∃ ms, marks? v tokens = some ms ∧
      o.siblings.Keeps (Expr.spellings value.toList) ms := by
  obtain ⟨_, m, hread, hfinish⟩ := Expr.build_eq_ok_iff.mp h
  obtain ⟨ms, hms, hkeeps⟩ := Machine.keeps_of_read hread
  exact ⟨ms, hms, (Machine.keeps_of_unwind (Machine.finish_eq_ok_iff.mp hfinish).1).trans hkeeps⟩

theorem SiblingRule.Keeps.sublist {rule : SiblingRule} {as bs : List Mark}
    (h : rule.Keeps as bs) : as.Sublist bs := by
  cases rule with
  | reject =>
    cases h
    exact List.Sublist.refl as
  | keepFirst => exact h

/-- Rejecting siblings, a policy has one node for each token that is no parenthesis. -/
theorem length_nodes_of_build (hreject : o.siblings = .reject)
    (h : Expr.build v o tokens = .ok value) :
    (value.toList.flatMap Expr.nodes).length = (bareTokens tokens).length := by
  obtain ⟨ms, hms, hkeeps⟩ := keeps_of_build h
  rw [hreject] at hkeeps
  rw [← Expr.length_spellings, ← length_of_marks? hms]
  exact congrArg List.length hkeeps

theorem operations_le_of_build {e : Expr} (h : Expr.build v o tokens = .ok (some e)) :
    e.operations ≤ Category.operator.count tokens := by
  obtain ⟨ms, hms, hkeeps⟩ := keeps_of_build h
  rw [← Expr.countP_spelling, ← countP_of_marks? hms, ← Expr.spellings_singleton]
  exact hkeeps.sublist.countP_le

end Build

end CertPolicy
