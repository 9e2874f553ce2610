import CertPolicy.Expr.Json
import CertPolicy.Options.Json
import CertPolicy.Trace
import CertPolicy.Proofs.Grammar
import CertPolicy.Proofs.Machine.Simulation
import CertPolicy.Proofs.Machine.Step
import CertPolicy.Proofs.Machine.Counters
import CertPolicy.Proofs.Spelling
import CertPolicy.Proofs.Acceptance
import CertPolicy.Proofs.Machine.Nesting
import CertPolicy.Proofs.Grouping
import CertPolicy.Proofs.Machine.Errors
import CertPolicy.Proofs.Blanks
import CertPolicy.Proofs.Conservation
import CertPolicy.Proofs.Reserved
import CertPolicy.Proofs.SolidWords
import CertPolicy.Proofs.LongestMatch
import CertPolicy.Proofs.Scanning
import CertPolicy.Proofs.StepwiseCheck
import CertPolicy.Proofs.StandardScan
import CertPolicy.Proofs.Separators
import CertPolicy.Proofs.LiteralModes
import CertPolicy.Proofs.ScannedTokens
import CertPolicy.Proofs.Respacing
import CertPolicy.Proofs.Naming
import CertPolicy.Proofs.Sources
import CertPolicy.Proofs.NodeCounts
import CertPolicy.Proofs.Leniency
import CertPolicy.Proofs.Machine.Nodes
import CertPolicy.Proofs.Arity
import CertPolicy.Proofs.Limits
import CertPolicy.Proofs.Diagnostics
import CertPolicy.Proofs.EmptyPolicies
import CertPolicy.Proofs.FlatPolicies
import CertPolicy.Proofs.LiteralTexts
import CertPolicy.Proofs.Json.Strings
import CertPolicy.Proofs.Json.Documents
import CertPolicy.Proofs.Persistence
import CertPolicy.Proofs.Reloading
import CertPolicy.Proofs.References
import CertPolicy.Proofs.WrittenWords
import CertPolicy.Proofs.Precedence
import CertPolicy.Proofs.RequiredFields
import CertPolicy.OperatorTable.Indexed
import CertPolicy.Proofs.Bindings
import CertPolicy.Proofs.Descent
import CertPolicy.Proofs.Occurrences
import CertPolicy.Proofs.OpenBuilds
import CertPolicy.Proofs.Registrations
