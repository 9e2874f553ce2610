import Mathlib.Data.List.Basic
import CertPolicy.OperatorTable

/-!
# Operator tables with an index

An operator table can be kept together with an index that leads from a token to the place of its
binding, so that a lookup does not walk the table. Adding a binding then changes two things, the
list and the index, and it is not in the type that they agree: a place that the index gives may be
out of range.
-/

namespace CertPolicy
set_option autoImplicit false

structure IndexedTable where
  entries : List Binding
  /-- The places of the tokens in the list. -/
  index : Std.HashMap String Nat

namespace IndexedTable

def empty : IndexedTable := ⟨[], ∅⟩

/-- Adds a binding, at the place that the index has for its token or else at the end. A place out of
range is an error. -/
def bind? (t : IndexedTable) (b : Binding) : Option IndexedTable :=
  match t.index[b.token]? with
  | some i => if i < t.entries.length then some { t with entries := t.entries.set i b } else none
  | none => some ⟨t.entries ++ [b], t.index.insert b.token t.entries.length⟩

def bindAll? (t : IndexedTable) (bindings : List Binding) : Option IndexedTable :=
  bindings.foldlM bind? t

def find? (t : IndexedTable) (token : String) : Option Binding :=
  t.index[token]?.bind fun i => t.entries[i]?

end IndexedTable
end CertPolicy
