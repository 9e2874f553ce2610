import CertPolicy.Expr

/-!
# Operator tables

An operator table binds tokens to operators. Binding a token again replaces its binding where
it stands, so the bindings are in the order in which their tokens were first bound, and no
token is bound twice.
-/

namespace CertPolicy
set_option autoImplicit false

/-- A token bound to an operator, with the number of operands that it takes. -/
structure Binding where
  token : String
  operator : Operator
  arity : Arity
  deriving DecidableEq, Repr

namespace Binding

def minOperands (b : Binding) : Nat :=
  b.arity.minOperands

def combine (b : Binding) (operands : List Expr) : Expr :=
  .operation b.operator operands

end Binding

structure OperatorTable where
  bindings : List Binding
  deriving DecidableEq, Repr

namespace OperatorTable

def empty : OperatorTable := ⟨[]⟩

def position? (t : OperatorTable) (token : String) : Option Nat :=
  t.bindings.findIdx? (·.token == token)

def find? (t : OperatorTable) (token : String) : Option Binding :=
  t.bindings.find? (·.token == token)

/-- Adds a binding. It replaces an earlier one of the same token where that stands. -/
def bind (t : OperatorTable) (b : Binding) : OperatorTable :=
  match t.position? b.token with
  | some i => ⟨t.bindings.set i b⟩
  | none => ⟨t.bindings ++ [b]⟩

def bindAll (t : OperatorTable) (bindings : List Binding) : OperatorTable :=
  bindings.foldl bind t

def standard : OperatorTable :=
  empty.bindAll (Tagged.all.map fun o : Operator => ⟨o.token, o, o.arity⟩)

/-- The binding that a lookup finds is of the token that was looked up. -/
theorem token_of_find? {t : OperatorTable} {token : String} {b : Binding}
    (h : t.find? token = some b) : b.token = token := by
  simpa using List.find?_some h

end OperatorTable
end CertPolicy
