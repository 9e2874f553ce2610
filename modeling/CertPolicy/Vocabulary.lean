import CertPolicy.Reserved

/-!
# Vocabularies

A vocabulary is a table of operators and a table of fields, together with the words that the
two reserve.
-/

namespace CertPolicy
set_option autoImplicit false

/-- The operators and fields that a policy can use. The reserved words follow from the two
tables and are kept beside them. -/
structure Vocabulary where
  operators : OperatorTable
  fields : FieldTable
  reserved : Reserved
  reserved_eq : reserved = .ofTables operators fields

namespace Vocabulary

def ofTables (operators : OperatorTable) (fields : FieldTable) : Vocabulary :=
  ⟨operators, fields, .ofTables operators fields, rfl⟩

/-- All operators and all fields under their own tokens. -/
def standard : Vocabulary :=
  ofTables .standard .standard

def bind (v : Vocabulary) (b : Binding) : Vocabulary :=
  ofTables (v.operators.bind b) v.fields

def addField (v : Vocabulary) (e : FieldListing) : Vocabulary :=
  ofTables v.operators (v.fields.add e)

/-- Both tables determine a vocabulary. -/
theorem ext_tables {v w : Vocabulary} (ho : v.operators = w.operators)
    (hf : v.fields = w.fields) : v = w := by
  obtain ⟨_, _, _, rfl⟩ := v
  obtain ⟨_, _, _, rfl⟩ := w
  subst ho hf
  rfl

end Vocabulary
end CertPolicy
