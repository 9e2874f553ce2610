import CertPolicy.Expr.Build
import CertPolicy.Source
import CertPolicy.Token.Scan

/-!
# Dialects

A dialect is a vocabulary with the options under which policies are read in it. This module
holds the ways from a text, or a source of bytes, to tokens and to a policy.
-/

namespace CertPolicy
set_option autoImplicit false

inductive PolicyError where
  | stream (cause : StreamError)
  | build (cause : BuildError)
  deriving DecidableEq, Repr

def PolicyError.message : PolicyError → String
  | .stream cause => cause.message
  | .build cause => cause.message

structure Dialect where
  vocabulary : Vocabulary
  options : Options

namespace Dialect

def standard : Dialect := ⟨.standard, .strict⟩

def tokenize (d : Dialect) (text : String) : List Token :=
  Token.scan d.vocabulary.reserved d.options.splitLiterals text

def build (d : Dialect) (tokens : List Token) : Except BuildError (Option Expr) :=
  Expr.build d.vocabulary d.options tokens

/-- The policy that a text spells, `none` if it spells nothing at all. -/
def parse (d : Dialect) (text : String) : Except BuildError (Option Expr) :=
  d.build (d.tokenize text)

def tokenizeSource (d : Dialect) (source : List Delivery) : Except StreamError (List Token) := do
  let text ← Source.text (← Source.bytes source)
  return d.tokenize text

def parseSource (d : Dialect) (source : List Delivery) : Except PolicyError (Option Expr) := do
  let tokens ← (d.tokenizeSource source).mapError .stream
  (d.build tokens).mapError .build

end Dialect
end CertPolicy
