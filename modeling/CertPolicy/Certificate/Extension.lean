import CertPolicy.Certificate.Tbs

/-!
# Certificate extensions

The extension values that a policy can name. Several of them may lie in one extension and
share its object identifier.
-/

namespace CertPolicy
set_option autoImplicit false

/-- A value held in a certificate extension. -/
inductive Extension where
  | keyUsage
  | subjectKeyIdentifier
  | authorityKeyIdentifierKeyId
  | authorityKeyIdentifierCertIssuers
  | authorityKeyIdentifierSerialNumber
  | basicConstraintsCa
  | basicConstraintsPathLength
  | subjectAltName
  | issuerAltName
  | certificatePolicies
  | extendedKeyUsage
  | crlDistributionPoints
  | authorityInfoAccessUrl
  | authorityInfoAccessOcspUrl
  deriving DecidableEq, Repr

instance : Tagged Extension where
  all := [.keyUsage, .subjectKeyIdentifier, .authorityKeyIdentifierKeyId,
    .authorityKeyIdentifierCertIssuers, .authorityKeyIdentifierSerialNumber,
    .basicConstraintsCa, .basicConstraintsPathLength, .subjectAltName, .issuerAltName,
    .certificatePolicies, .extendedKeyUsage, .crlDistributionPoints, .authorityInfoAccessUrl,
    .authorityInfoAccessOcspUrl]
  tag
    | .keyUsage => "KeyUsage"
    | .subjectKeyIdentifier => "SubjectKeyIdentifier"
    | .authorityKeyIdentifierKeyId => "AuthorityKeyIdentifierKeyId"
    | .authorityKeyIdentifierCertIssuers => "AuthorityKeyIdentifierCertIssuers"
    | .authorityKeyIdentifierSerialNumber => "AuthorityKeyIdentifierSerialNumber"
    | .basicConstraintsCa => "BasicConstraintsCa"
    | .basicConstraintsPathLength => "BasicConstraintsPathLength"
    | .subjectAltName => "SubjectAltName"
    | .issuerAltName => "IssuerAltName"
    | .certificatePolicies => "CertificatePolicies"
    | .extendedKeyUsage => "ExtendedKeyUsage"
    | .crlDistributionPoints => "CrlDistributionPoints"
    | .authorityInfoAccessUrl => "AuthorityInfoAccessUrl"
    | .authorityInfoAccessOcspUrl => "AuthorityInfoAccessOcspUrl"
  mem_all a := by cases a <;> decide
  nodup_tags := by decide

namespace Extension

/-- The object identifier of the extension that holds the value, in dotted decimal. -/
def oid : Extension → String
  | .keyUsage => "2.5.29.15"
  | .subjectKeyIdentifier => "2.5.29.14"
  | .authorityKeyIdentifierKeyId | .authorityKeyIdentifierCertIssuers
  | .authorityKeyIdentifierSerialNumber => "2.5.29.35"
  | .basicConstraintsCa | .basicConstraintsPathLength => "2.5.29.19"
  | .subjectAltName => "2.5.29.17"
  | .issuerAltName => "2.5.29.18"
  | .certificatePolicies => "2.5.29.32"
  | .extendedKeyUsage => "2.5.29.37"
  | .crlDistributionPoints => "2.5.29.31"
  | .authorityInfoAccessUrl | .authorityInfoAccessOcspUrl => "1.3.6.1.5.5.7.1.1"

def path : Extension → String
  | .keyUsage => "KeyUsage"
  | .subjectKeyIdentifier => "SubjectKeyIdentifier"
  | .authorityKeyIdentifierKeyId => "AuthorityKeyIdentifier.KeyId"
  | .authorityKeyIdentifierCertIssuers => "AuthorityKeyIdentifier.CertIssuers"
  | .authorityKeyIdentifierSerialNumber => "AuthorityKeyIdentifier.SerialNumber"
  | .basicConstraintsCa => "BasicConstraints.CA"
  | .basicConstraintsPathLength => "BasicConstraints.PathLength"
  | .subjectAltName => "SubjectAltName"
  | .issuerAltName => "IssuerAltName"
  | .certificatePolicies => "CertificatePolicies.PolicyOIDs"
  | .extendedKeyUsage => "ExtendedKeyUsage"
  | .crlDistributionPoints => "CRLDistributionPoints.FullName"
  | .authorityInfoAccessUrl => "AuthorityInfoAccessSyntax.Url"
  | .authorityInfoAccessOcspUrl => "AuthorityInfoAccessSyntax.OCSPLocation"

def token (e : Extension) : String :=
  TbsSection.extensions.token ++ "." ++ e.path

end Extension
end CertPolicy
