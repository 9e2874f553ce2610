import CertPolicy.Expr
import CertPolicy.Json.Decode
import CertPolicy.Json.Read

/-!
# Expressions as documents

A field and an expression are each a value with contents. All fields of a record have to be
given.
-/

namespace CertPolicy
set_option autoImplicit false

namespace Field

def toJson : Field → Json
  | .outer f => .object [("X509", .text (Tagged.tag f))]
  | .tbs f => .object [("Tbs", .text (Tagged.tag f))]
  | .name party required a =>
    .object [("RdnAttribute", .object [("scope", .text (Tagged.tag party)),
      ("required", .bool required), ("attribute", .text (Tagged.tag a))])]
  | .extension required e =>
    .object [("Extension", .object [("required", .bool required),
      ("identifier", .text (Tagged.tag e))])]

/-- The field that a document holds, if the document is nested no deeper than it may be. -/
def ofJson? (nesting : Nat) (j : Json) : Option Field :=
  if nesting = 0 then none
  else
    match j.variant? with
    | some ("X509", content) => (content.tagged? OuterField (nesting - 1)).map .outer
    | some ("Tbs", content) => (content.tagged? TbsValue (nesting - 1)).map .tbs
    | some ("RdnAttribute", content) =>
      if nesting = 1 then none
      else
        match content.fields? ["scope", "required", "attribute"] with
        | some [some scope, some required, some attr] => do
          return .name (← scope.tagged? Party (nesting - 2)) (← required.bool?)
            (← attr.tagged? NameAttribute (nesting - 2))
        | _ => none
    | some ("Extension", content) =>
      if nesting = 1 then none
      else
        match content.fields? ["required", "identifier"] with
        | some [some required, some identifier] => do
          return .extension (← required.bool?) (← identifier.tagged? Extension (nesting - 2))
        | _ => none
    | _ => none

def fromText? (text : String) : Option Field := do
  ofJson? Json.nestingLimit (← Json.read? text)

end Field

namespace Expr

mutual

def toJson : Expr → Json
  | .operation o es =>
    .object [("Operation", .object [("operator", .text (Tagged.tag o)),
      ("operands", .arr (toJsonAll es))])]
  | .literal text => .object [("Literal", .object [("value", .text text)])]
  | .field f => .object [("Field", f.toJson)]

def toJsonAll : List Expr → List Json
  | [] => []
  | e :: es => toJson e :: toJsonAll es

end

theorem toJsonAll_eq_map (es : List Expr) : toJsonAll es = es.map toJson := by
  induction es with
  | nil => rfl
  | cons e es ih => simp [toJsonAll, ih]

/-- The expression that a document holds, if the document is nested no deeper than it may be.
An operation with operands takes three levels of nesting: the expression, its record, and the
array of the operands. -/
def ofJson? : Nat → Json → Option Expr
  | 0, _ => none
  | nesting + 1, j =>
    match j.variant? with
    | some ("Operation", content) =>
      match nesting, content.fields? ["operator", "operands"] with
      | nesting + 2, some [some operator, some (.arr operands)] => do
        return .operation (← operator.tagged? Operator (nesting + 1))
          (← operands.mapM (ofJson? nesting))
      | _, _ => none
    | some ("Literal", content) =>
      match nesting, content.fields? ["value"] with
      | _ + 1, some [some value] => value.text?.map .literal
      | _, _ => none
    | some ("Field", content) => (Field.ofJson? nesting content).map .field
    | _ => none

def fromText? (text : String) : Option Expr := do
  ofJson? Json.nestingLimit (← Json.read? text)

end Expr
end CertPolicy
