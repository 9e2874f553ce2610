import CertPolicy.FieldTable

/-!
# From reference tokens to fields

A token is looked up among the outer fields, then in the signed part, then among the
extensions; the first list that knows it decides. Outer tokens are looked up as they are, the
others without a trailing `+`, which makes the field required where it may be absent.
-/

namespace CertPolicy
set_option autoImplicit false

inductive Taxonomy where
  | outer
  | tbs
  | extension
  deriving DecidableEq, Repr

def Taxonomy.label : Taxonomy → String
  | .outer => "X509"
  | .tbs => "TBS"
  | .extension => "Extension"

inductive ResolutionError where
  /-- The token is known, but stands for no field. -/
  | notImplemented (taxonomy : Taxonomy) (token : String)
  /-- The token is to end in the short name of an attribute and does not. -/
  | unknownAttribute (token : String) (cause : UnknownAttribute)
  | unresolved (token : String)
  deriving DecidableEq, Repr

def ResolutionError.message : ResolutionError → String
  | .notImplemented taxonomy token =>
    taxonomy.label ++ " field with token name " ++ token ++ " has not been implemented yet"
  | .unknownAttribute token cause =>
    "Error building " ++ Taxonomy.tbs.label ++ " field " ++ token ++ ": " ++ cause.message
  | .unresolved token => "Token " ++ token ++ " does not name a known certificate field"

def lastSegment (token : String) : String :=
  String.ofList (token.toList.reverse.takeWhile (· != '.')).reverse

namespace FieldTable

/-- The outcome of a lookup: `none` if the list does not know the token. -/
abbrev Lookup := Except ResolutionError (Option Field)

def resolveOuter (t : FieldTable) (token : String) : Lookup :=
  match t.findOuter? token with
  | none => .ok none
  | some e =>
    if e.implemented then .ok (some (.outer e.field))
    else .error (.notImplemented .outer token)

def resolveTbs (t : FieldTable) (token : String) : Lookup :=
  let (name, required) := splitMark token
  match t.findTbs? name with
  | none => .ok none
  | some e =>
    match e.meaning with
    | none => .error (.notImplemented .tbs token)
    | some (.value f) => .ok (some (.tbs f))
    | some (.name party) =>
      match NameAttribute.ofShortName (lastSegment name) with
      | .ok a => .ok (some (.name party required a))
      | .error cause => .error (.unknownAttribute token cause)

def resolveExtension (t : FieldTable) (token : String) : Lookup :=
  let (name, required) := splitMark token
  match t.findExtension? name with
  | none => .ok none
  | some e =>
    if e.implemented then .ok (some (.extension required e.value))
    else .error (.notImplemented .extension token)

/-- The field that a token names, `none` if no list knows the token. -/
def resolve (t : FieldTable) (token : String) : Lookup := do
  match ← t.resolveOuter token with
  | some f => return some f
  | none =>
    match ← t.resolveTbs token with
    | some f => return some f
    | none => t.resolveExtension token

def resolveRequired (t : FieldTable) (token : String) : Except ResolutionError Field := do
  match ← t.resolve token with
  | some f => return f
  | none => throw (.unresolved token)

end FieldTable
end CertPolicy
