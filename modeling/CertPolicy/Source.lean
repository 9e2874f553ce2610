import CertPolicy.Text.Utf8

/-!
# Byte sources

A policy may be read from a source of bytes that delivers them piece by piece. The source is
read to its end before anything is looked at; a zero byte ends the policy, and what stands
before it has to be UTF-8.
-/

namespace CertPolicy
set_option autoImplicit false

/-- What one attempt to read from a source yields. -/
inductive Delivery where
  /-- Some bytes; none at all is the end of the source. -/
  | data (bytes : List UInt8)
  /-- Nothing, and the attempt is made again. -/
  | interrupted
  | failed (kind text : String)
  deriving DecidableEq, Repr

inductive StreamError where
  | failed (kind text : String)
  | malformed (fault : Utf8.Fault)
  deriving DecidableEq, Repr

def StreamError.message : StreamError → String
  | .failed _ text => "Stream error: " ++ text
  | .malformed fault => "Stream error: " ++ fault.message

namespace Source

/-- All bytes up to the end of the source. The first failure before the end wins. -/
def bytes : List Delivery → Except StreamError (List UInt8)
  | [] => .ok []
  | .data [] :: _ => .ok []
  | .data (b :: piece) :: rest => (bytes rest).map fun more => b :: piece ++ more
  | .interrupted :: rest => bytes rest
  | .failed kind text :: _ => .error (.failed kind text)

def beforeZero (bytes : List UInt8) : List UInt8 :=
  bytes.takeWhile (· != 0)

def text (bytes : List UInt8) : Except StreamError String :=
  (Utf8.decode (beforeZero bytes)).mapError .malformed

end Source
end CertPolicy
