import CertPolicy.Certificate.Extension
import CertPolicy.Certificate.Name

/-!
# Certificate fields

`Field` is what a policy can read from a certificate. Attributes of names and extensions may
be absent from a certificate; a trailing `+` on their token demands that they be present.
-/

namespace CertPolicy
set_option autoImplicit false

/-- A trailing `+` split off a token, and whether there was one. Only one mark is split off. -/
def splitMark (token : String) : String × Bool :=
  if token.toList.getLast? = some '+' then (String.ofList token.toList.dropLast, true)
  else (token, false)

@[simp] theorem splitMark_append (token : String) : splitMark (token ++ "+") = (token, true) := by
  simp [splitMark]

theorem splitMark_of_getLast?_ne {token : String} (h : token.toList.getLast? ≠ some '+') :
    splitMark token = (token, false) := by
  simp [splitMark, h]

def markText (required : Bool) : String :=
  if required then "+" else ""

inductive FieldKind where
  | outer
  | tbs
  | name
  | extension
  deriving DecidableEq, Repr

instance : Tagged FieldKind where
  all := [.outer, .tbs, .name, .extension]
  tag
    | .outer => "X509Direct"
    | .tbs => "TbsSimple"
    | .name => "TbsRdnAttribute"
    | .extension => "Extension"
  mem_all a := by cases a <;> decide
  nodup_tags := by decide

inductive Field where
  | outer (field : OuterField)
  | tbs (value : TbsValue)
  | name (party : Party) (required : Bool) (attr : NameAttribute)
  | extension (required : Bool) (value : Extension)
  deriving DecidableEq, Repr

namespace Field

def kind : Field → FieldKind
  | .outer _ => .outer
  | .tbs _ => .tbs
  | .name .. => .name
  | .extension .. => .extension

/-- Whether the certificate must hold the field. Fields without a mark need not be asked for. -/
def isRequired : Field → Bool
  | .outer _ | .tbs _ => false
  | .name _ required _ | .extension required _ => required

def token : Field → String
  | .outer f => f.token
  | .tbs f => f.token
  | .name party required a => a.token party ++ markText required
  | .extension required e => e.token ++ markText required

end Field
end CertPolicy
