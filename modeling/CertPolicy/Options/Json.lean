import CertPolicy.Json.Decode
import CertPolicy.Json.Read
import CertPolicy.Options

/-!
# Options as documents

Options are a record. A field that a document does not give has its strict value.
-/

namespace CertPolicy
set_option autoImplicit false

namespace Options

def fieldNames : List String :=
  ["sibling_mode", "require_balanced", "split_literals", "max_depth", "max_recursion"]

def toJson (o : Options) : Json :=
  .object (fieldNames.zip [.text (Tagged.tag o.siblings), .bool o.requireBalanced,
    .bool o.splitLiterals, .nat o.maxDepth, .nat o.maxRecursion])

/-- The value of a field: what a document gives, and otherwise a default. -/
def given? {α : Type} (default : α) (decode : Json → Option α) : Option Json → Option α
  | some j => decode j
  | none => some default

def ofJson? (j : Json) : Option Options :=
  match j.fields? fieldNames with
  | some [siblings, balanced, split, depth, recursion] => do
    return {
      siblings := ← given? strict.siblings
        (Json.tagged? SiblingRule (Json.nestingLimit - 1)) siblings
      requireBalanced := ← given? strict.requireBalanced Json.bool? balanced
      splitLiterals := ← given? strict.splitLiterals Json.bool? split
      maxDepth := ← given? strict.maxDepth Json.word? depth
      maxRecursion := ← given? strict.maxRecursion Json.word? recursion }
  | _ => none

def fromText? (text : String) : Option Options := do
  ofJson? (← Json.read? text)

end Options
end CertPolicy
