import CertPolicy.Certificate.Field
import CertPolicy.Operator

/-!
# Policy expressions

A policy is a tree. Its leaves are literals, kept as written, and certificate fields; an inner
node applies an operator to its operands from left to right. No arity is demanded of the tree
itself.

`Expr.nodes` lists all subexpressions, each before its operands; the other views of a tree are
read off that list.
-/

namespace CertPolicy
set_option autoImplicit false

inductive Expr where
  | operation (operator : Operator) (operands : List Expr)
  | literal (text : String)
  | field (field : Field)
  deriving Repr

namespace Expr

def binary (operator : Operator) (left right : Expr) : Expr :=
  .operation operator [left, right]

def operator? : Expr → Option Operator
  | .operation o _ => some o
  | _ => none

def operands : Expr → List Expr
  | .operation _ es => es
  | _ => []

def field? : Expr → Option Field
  | .field f => some f
  | _ => none

mutual

def decEq : (a b : Expr) → Decidable (a = b)
  | .operation o es, .operation p fs =>
    match (inferInstance : Decidable (o = p)), decEqAll es fs with
    | isTrue ho, isTrue hs => isTrue (by rw [ho, hs])
    | isFalse ho, _ => isFalse fun h => ho (by injection h)
    | _, isFalse hs => isFalse fun h => hs (by injection h)
  | .literal s, .literal t =>
    if h : s = t then isTrue (by rw [h]) else isFalse fun he => h (by injection he)
  | .field f, .field g =>
    if h : f = g then isTrue (by rw [h]) else isFalse fun he => h (by injection he)
  | .operation .., .literal _ | .operation .., .field _ | .literal _, .operation ..
  | .literal _, .field _ | .field _, .operation .. | .field _, .literal _ =>
    isFalse fun h => by injection h

def decEqAll : (as bs : List Expr) → Decidable (as = bs)
  | [], [] => isTrue rfl
  | a :: as, b :: bs =>
    match decEq a b, decEqAll as bs with
    | isTrue h, isTrue hs => isTrue (by rw [h, hs])
    | isFalse h, _ => isFalse fun he => h (by injection he)
    | _, isFalse hs => isFalse fun he => hs (by injection he)
  | [], _ :: _ | _ :: _, [] => isFalse fun h => by injection h

end

instance : DecidableEq Expr := decEq

mutual

/-- All subexpressions in preorder, the expression itself first. -/
def nodes : Expr → List Expr
  | e@(.operation _ es) => e :: nodesAll es
  | e@(.literal _) => [e]
  | e@(.field _) => [e]

def nodesAll : List Expr → List Expr
  | [] => []
  | e :: es => nodes e ++ nodesAll es

end

theorem nodesAll_eq_flatMap (es : List Expr) : nodesAll es = es.flatMap nodes := by
  induction es with
  | nil => rfl
  | cons e es ih => simp [nodesAll, ih]

theorem mem_nodes_self (e : Expr) : e ∈ e.nodes := by
  cases e <;> simp [nodes]

def fields (e : Expr) : List Field :=
  e.nodes.filterMap field?

@[simp] theorem fields_literal (text : String) : (Expr.literal text).fields = [] := rfl

@[simp] theorem fields_field (f : Field) : (Expr.field f).fields = [f] := rfl

theorem fields_operation (o : Operator) (es : List Expr) :
    (Expr.operation o es).fields = es.flatMap fields := by
  simp only [fields, nodes, nodesAll_eq_flatMap]
  rw [List.filterMap_cons_none rfl]
  induction es with
  | nil => rfl
  | cons e es ih => simp [List.filterMap_append, ih, fields]

end Expr
end CertPolicy
