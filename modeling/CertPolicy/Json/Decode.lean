import CertPolicy.Json.Basic
import CertPolicy.Tagged

/-!
# Reading values from documents

How a value of a type is found in a document. A record is an object with a member for each
field, or an array of the fields in order. A value with a tag and nothing else is the tag as a
string, or an object with that one key and the value `null`; a value with contents is an object
with one key.

Arrays and objects that hold values may be nested only so far. A decoder is told how many
nested ones it may still go through; what stands under an unknown key does not count.
-/

namespace CertPolicy
set_option autoImplicit false

namespace Json

/-- How far arrays and objects that hold values may be nested. -/
def nestingLimit : Nat := 127

def variant? : Json → Option (String × Json)
  | .obj [(some tag, content)] => some (tag, content)
  | _ => none

def tagged? (α : Type) [Tagged α] (nesting : Nat) : Json → Option α
  | .str (some tag) => Tagged.ofTag? tag
  | .obj [(some tag, .null)] => if nesting = 0 then none else Tagged.ofTag? tag
  | _ => none

def bool? : Json → Option Bool
  | .bool b => some b
  | _ => none

def text? : Json → Option String
  | .str s => s
  | _ => none

def word? : Json → Option Nat
  | .nat n => if n < UInt64.size then some n else none
  | _ => none

/-- The fields of a record, each with its value if it has one. Keys that name no field are
passed over; a field that is given twice, a key that spells no text and an item too many are
errors. -/
def fields? (names : List String) : Json → Option (List (Option Json))
  | .obj members =>
    let known := members.filter fun m => names.any fun name => m.1 == some name
    if members.all (·.1.isSome) && (known.map (·.1)).Nodup then
      some (names.map fun name => (known.find? (·.1 == some name)).map (·.2))
    else none
  | .arr items =>
    if items.length ≤ names.length then
      some (items.map some ++ List.replicate (names.length - items.length) none)
    else none
  | _ => none

end Json
end CertPolicy
