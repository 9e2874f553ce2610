import CertPolicy.Tagged

/-!
# The outer certificate and its signed part

A certificate is an outer structure around a part that is to be signed (TBS). The outer
structure has fields of its own; the signed part is divided into sections, some of which hold
a single value that a policy can name.
-/

namespace CertPolicy
set_option autoImplicit false

inductive OuterField where
  | signature
  | signatureAlgorithm
  | tbs
  deriving DecidableEq, Repr

instance : Tagged OuterField where
  all := [.signature, .signatureAlgorithm, .tbs]
  tag
    | .signature => "Signature"
    | .signatureAlgorithm => "SignatureAlgorithm"
    | .tbs => "Tbs"
  mem_all a := by cases a <;> decide
  nodup_tags := by decide

def OuterField.token : OuterField → String
  | .signature => "X509.Signature"
  | .signatureAlgorithm => "X509.Algorithm"
  | .tbs => "X509.TBS"

inductive TbsSection where
  | version
  | serialNumber
  | signature
  | issuer
  | validity
  | subject
  | subjectPublicKeyInfo
  | issuerUniqueId
  | subjectUniqueId
  | extensions
  deriving DecidableEq, Repr

instance : Tagged TbsSection where
  all := [.version, .serialNumber, .signature, .issuer, .validity, .subject,
    .subjectPublicKeyInfo, .issuerUniqueId, .subjectUniqueId, .extensions]
  tag
    | .version => "Version"
    | .serialNumber => "SerialNumber"
    | .signature => "Signature"
    | .issuer => "Issuer"
    | .validity => "Validity"
    | .subject => "Subject"
    | .subjectPublicKeyInfo => "SubjectPublicKeyInfo"
    | .issuerUniqueId => "IssuerUniqueId"
    | .subjectUniqueId => "SubjectUniqueId"
    | .extensions => "Extensions"
  mem_all a := by cases a <;> decide
  nodup_tags := by decide

namespace TbsSection

/-- The section's segment of a token: its tag, except that the extensions write `EXTENSION`. -/
def segment : TbsSection → String
  | .extensions => "EXTENSION"
  | s => Tagged.tag s

def token (s : TbsSection) : String :=
  OuterField.tbs.token ++ "." ++ s.segment

def holdsName : TbsSection → Bool
  | .issuer | .subject => true
  | _ => false

end TbsSection

/-- A value of the signed part that a policy names without a parameter. -/
inductive TbsValue where
  | version
  | serialNumber
  | signature
  | validity
  | subjectPublicKeyAlgorithm
  | subjectPublicKeySize
  | issuerUniqueId
  | subjectUniqueId
  deriving DecidableEq, Repr

instance : Tagged TbsValue where
  all := [.version, .serialNumber, .signature, .validity, .subjectPublicKeyAlgorithm,
    .subjectPublicKeySize, .issuerUniqueId, .subjectUniqueId]
  tag
    | .version => "Version"
    | .serialNumber => "SerialNumber"
    | .signature => "Signature"
    | .validity => "Validity"
    | .subjectPublicKeyAlgorithm => "SubjectPublicKeyAlgorithm"
    | .subjectPublicKeySize => "SubjectPublicKeySize"
    | .issuerUniqueId => "IssuerUniqueId"
    | .subjectUniqueId => "SubjectUniqueId"
  mem_all a := by cases a <;> decide
  nodup_tags := by decide

namespace TbsValue

/-- The section that holds the value. Both key values lie in the public key section. -/
def container : TbsValue → TbsSection
  | .version => .version
  | .serialNumber => .serialNumber
  | .signature => .signature
  | .validity => .validity
  | .subjectPublicKeyAlgorithm | .subjectPublicKeySize => .subjectPublicKeyInfo
  | .issuerUniqueId => .issuerUniqueId
  | .subjectUniqueId => .subjectUniqueId

/-- The word that names the value: its section's, and one segment more for a key value. -/
def token (f : TbsValue) : String :=
  match f with
  | .subjectPublicKeyAlgorithm => f.container.token ++ ".Algorithm"
  | .subjectPublicKeySize => f.container.token ++ ".Size"
  | _ => f.container.token

end TbsValue
end CertPolicy
