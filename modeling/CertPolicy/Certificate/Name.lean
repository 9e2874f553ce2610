import CertPolicy.Certificate.Tbs

/-!
# Distinguished names

A certificate holds two distinguished names, its issuer's and its subject's. Each is a list of
attributes; a policy names one attribute of one party by the attribute's short name.
-/

namespace CertPolicy
set_option autoImplicit false

inductive Party where
  | issuer
  | subject
  deriving DecidableEq, Repr

instance : Tagged Party where
  all := [.issuer, .subject]
  tag
    | .issuer => "Issuer"
    | .subject => "Subject"
  mem_all a := by cases a <;> decide
  nodup_tags := by decide

def Party.container : Party → TbsSection
  | .issuer => .issuer
  | .subject => .subject

inductive NameAttribute where
  | commonName
  | country
  | state
  | locality
  | organization
  | organizationalUnit
  | domainComponent
  | email
  | serialNumber
  | title
  | surname
  | givenName
  | initials
  | pseudonym
  | generationQualifier
  | distinguishedNameQualifier
  deriving DecidableEq, Repr

instance : Tagged NameAttribute where
  all := [.commonName, .country, .state, .locality, .organization, .organizationalUnit,
    .domainComponent, .email, .serialNumber, .title, .surname, .givenName, .initials,
    .pseudonym, .generationQualifier, .distinguishedNameQualifier]
  tag
    | .commonName => "CommonName"
    | .country => "Country"
    | .state => "State"
    | .locality => "Locality"
    | .organization => "Organization"
    | .organizationalUnit => "OrganizationalUnit"
    | .domainComponent => "DomainComponent"
    | .email => "Email"
    | .serialNumber => "SerialNumber"
    | .title => "Title"
    | .surname => "Surname"
    | .givenName => "GivenName"
    | .initials => "Initials"
    | .pseudonym => "Pseudonym"
    | .generationQualifier => "GenerationQualifier"
    | .distinguishedNameQualifier => "DistinguishedNameQualifier"
  mem_all a := by cases a <;> decide
  nodup_tags := by decide

/-- A short name that no attribute has. -/
structure UnknownAttribute where
  name : String
  deriving DecidableEq, Repr

def UnknownAttribute.message (e : UnknownAttribute) : String :=
  "Unknown RDN attribute name: " ++ e.name

namespace NameAttribute

def shortName : NameAttribute → String
  | .commonName => "CN"
  | .country => "C"
  | .state => "ST"
  | .locality => "L"
  | .organization => "O"
  | .organizationalUnit => "OU"
  | .domainComponent => "DC"
  | .email => "E"
  | .serialNumber => "SERIALNUMBER"
  | .title => "TITLE"
  | .surname => "SN"
  | .givenName => "GIVENNAME"
  | .initials => "INITIALS"
  | .pseudonym => "PSEUDONYM"
  | .generationQualifier => "GENERATIONQUALIFIER"
  | .distinguishedNameQualifier => "DNQUALIFIER"

def oid : NameAttribute → String
  | .commonName => "2.5.4.3"
  | .country => "2.5.4.6"
  | .state => "2.5.4.8"
  | .locality => "2.5.4.7"
  | .organization => "2.5.4.10"
  | .organizationalUnit => "2.5.4.11"
  | .domainComponent => "0.9.2342.19200300.100.1.25"
  | .email => "1.2.840.113549.1.9.1"
  | .serialNumber => "2.5.4.5"
  | .title => "2.5.4.12"
  | .surname => "2.5.4.4"
  | .givenName => "2.5.4.42"
  | .initials => "2.5.4.43"
  | .pseudonym => "2.5.4.65"
  | .generationQualifier => "2.5.4.44"
  | .distinguishedNameQualifier => "2.5.4.46"

/-- A short name with its ASCII capitals made small; all other characters stay as they are. -/
def foldCase (name : String) : List Char :=
  name.toList.map Char.toLower

/-- The attribute with a short name, whatever the case of its ASCII letters. -/
def ofShortName (name : String) : Except UnknownAttribute NameAttribute :=
  match Tagged.all.find? fun a : NameAttribute => foldCase a.shortName == foldCase name with
  | some a => .ok a
  | none => .error ⟨name⟩

theorem ofShortName_shortName (a : NameAttribute) : ofShortName a.shortName = .ok a := by
  cases a <;> rfl

def token (party : Party) (a : NameAttribute) : String :=
  party.container.token ++ "." ++ a.shortName

end NameAttribute
end CertPolicy
