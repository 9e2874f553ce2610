import CertPolicy.Certificate.Field

/-!
# Field tables

A field table lists the tokens that name certificate fields, in three lists: fields of the
outer certificate, values of the signed part, and extensions. A token may be listed more than
once; in each list its first listing counts. A listing may have a name only, without a field
that it stands for; such a field is not implemented.

`FieldTable.referenceTokens` is the part of the table that a policy text can spell.
-/

namespace CertPolicy
set_option autoImplicit false

structure OuterListing where
  token : String
  field : OuterField
  implemented : Bool
  deriving DecidableEq, Repr

/-- What a token of the signed part stands for: a value by itself, or the attribute of a
party's name that the token's last segment spells. -/
inductive TbsMeaning where
  | value (value : TbsValue)
  | name (party : Party)
  deriving DecidableEq, Repr

structure TbsListing where
  token : String
  container : TbsSection
  meaning : Option TbsMeaning
  deriving DecidableEq, Repr

/-- Whether the token is listed with the mark `+` too: names may lack an attribute, so their
tokens can ask for it. -/
def TbsListing.acceptsMark (e : TbsListing) : Bool :=
  match e.meaning with
  | some (.name _) => true
  | _ => e.container.holdsName

structure ExtensionListing where
  token : String
  value : Extension
  implemented : Bool
  deriving DecidableEq, Repr

inductive FieldListing where
  | outer (listing : OuterListing)
  | tbs (listing : TbsListing)
  | extension (listing : ExtensionListing)
  deriving DecidableEq, Repr

structure FieldTable where
  outer : List OuterListing
  tbs : List TbsListing
  extensions : List ExtensionListing
  deriving DecidableEq, Repr

namespace FieldTable

def empty : FieldTable := ⟨[], [], []⟩

def add (t : FieldTable) : FieldListing → FieldTable
  | .outer e => { t with outer := t.outer ++ [e] }
  | .tbs e => { t with tbs := t.tbs ++ [e] }
  | .extension e => { t with extensions := t.extensions ++ [e] }

def addAll (t : FieldTable) (listings : List FieldListing) : FieldTable :=
  listings.foldl add t

def findOuter? (t : FieldTable) (token : String) : Option OuterListing :=
  t.outer.find? (·.token == token)

def findTbs? (t : FieldTable) (token : String) : Option TbsListing :=
  t.tbs.find? (·.token == token)

def findExtension? (t : FieldTable) (token : String) : Option ExtensionListing :=
  t.extensions.find? (·.token == token)

/-- Tokens of the outer list that a policy text can spell: the signed part as a whole cannot
be named. -/
def outerTokens (t : FieldTable) : List String :=
  (t.outer.filter (·.field != .tbs)).map (·.token)

/-- Tokens of the signed part that a policy text can spell, each followed by its marked form
where it has one. The extensions section as a whole cannot be named. -/
def tbsTokens (t : FieldTable) : List String :=
  (t.tbs.filter (·.container != .extensions)).flatMap fun e =>
    if e.acceptsMark then [e.token, e.token ++ "+"] else [e.token]

def extensionTokens (t : FieldTable) : List String :=
  t.extensions.flatMap fun e => [e.token, e.token ++ "+"]

def referenceTokens (t : FieldTable) : List String :=
  t.outerTokens ++ t.tbsTokens ++ t.extensionTokens

/-- The fields of the signed part that are implemented by a value of their own. -/
def standardMeaning : TbsValue → Option TbsMeaning
  | f@.serialNumber | f@.subjectPublicKeyAlgorithm | f@.subjectPublicKeySize => some (.value f)
  | _ => none

def standardExtension : Extension → Bool
  | .authorityKeyIdentifierCertIssuers | .authorityKeyIdentifierSerialNumber
  | .issuerAltName => false
  | _ => true

def standard : FieldTable where
  outer := [⟨OuterField.signature.token, .signature, false⟩,
    ⟨OuterField.signatureAlgorithm.token, .signatureAlgorithm, true⟩]
  tbs := (Tagged.all.map fun f : TbsValue => ⟨f.token, f.container, standardMeaning f⟩) ++
    Tagged.all.flatMap fun p : Party =>
      Tagged.all.map fun a : NameAttribute => ⟨a.token p, p.container, some (.name p)⟩
  extensions := Tagged.all.map fun e : Extension => ⟨e.token, e, standardExtension e⟩

end FieldTable
end CertPolicy
