import CertPolicy.FieldTable.Resolve
import CertPolicy.OperatorTable
import CertPolicy.Options

/-!
# The grammar's rules

A level collects expressions. An operator takes all expressions collected so far at its level
and the one that follows it, and puts a single operation in their place. This module holds the
rules of that by themselves, with the errors that break them; how a token sequence is walked
is the business of other modules.
-/

namespace CertPolicy
set_option autoImplicit false

/-- A breach of the grammar. An index is the place of a token in the token sequence; the place
behind the last token is the end of the policy. -/
inductive GrammarError where
  | strayEndLevel (index : Nat)
  | missingOperand (operator : String) (index : Nat)
  | tooFewOperands (operator : String) (index : Nat)
  | emptyLevel (index : Nat)
  | unjoinedSiblings (count index : Nat)
  | unclosedLevels (count : Nat)
  | nestingTooDeep (limit index : Nat)
  | buildsTooDeep (limit index : Nat)
  deriving DecidableEq, Repr

def GrammarError.message : GrammarError → String
  | .strayEndLevel index =>
    "Too many \")\" tokens at token " ++ toString index ++ ". Delete this token"
  | .missingOperand operator index =>
    "Missing parameter. Operator \"" ++ operator ++ "\" at token " ++ toString index ++
      " must be followed by an expression"
  | .tooFewOperands operator index =>
    "Missing parameter. Binary operator \"" ++ operator ++ "\" at token " ++ toString index ++
      " requires two parameters"
  | .emptyLevel index => "Empty \"()\" group closed at token " ++ toString index
  | .unjoinedSiblings count index =>
    toString count ++ " expressions at one level are not joined by an operator (level ends at "
      ++ "token " ++ toString index ++ ")"
  | .unclosedLevels count => toString count ++ " \"(\" token(s) never closed"
  | .nestingTooDeep limit index =>
    "Nesting depth exceeds the limit of " ++ toString limit ++ " at token " ++ toString index
  | .buildsTooDeep limit index =>
    "Expression needs more than " ++ toString limit ++ " recursive builds at token " ++
      toString index

inductive BuildError where
  | grammar (cause : GrammarError)
  | resolution (cause : ResolutionError)
  /-- A token is classed as an operator and bound to none. -/
  | unknownOperator (token : String)
  deriving DecidableEq, Repr

def BuildError.message : BuildError → String
  | .grammar cause => "Grammar error: " ++ cause.message
  | .resolution cause => "Field resolution error: " ++ cause.message
  | .unknownOperator token => "Unknown operator token: " ++ token

/-- What a build supplies: the policy, the value of a level, or the operand of the operator at
a place in the token sequence. -/
inductive Scope where
  | root
  | level
  | operand (operator : Binding) (index : Nat)
  deriving DecidableEq, Repr

def Scope.emptyError : Scope → Nat → GrammarError
  | .operand operator index, _ => .missingOperand operator.token index
  | .root, index | .level, index => .emptyLevel index

/-- The value of a level that ends at a place with the given expressions. -/
def SiblingRule.reduce (rule : SiblingRule) (pending : List Expr) (index : Nat) :
    Except BuildError (Option Expr) :=
  if rule = .reject ∧ 1 < pending.length then
    .error (.grammar (.unjoinedSiblings pending.length index))
  else .ok pending.head?

def SiblingRule.dropped (rule : SiblingRule) (pending : List Expr) : Nat :=
  match rule with
  | .reject => 0
  | .keepFirst => pending.length - 1

/-- What an operator at a place makes of the expressions before it and of its operand. -/
def Binding.apply (b : Binding) (index : Nat) (pending : List Expr)
    (operand : Option Expr) : Except BuildError (List Expr) :=
  match operand with
  | none => .error (.grammar (.missingOperand b.token index))
  | some e =>
    if (pending ++ [e]).length < b.minOperands then
      .error (.grammar (.tooFewOperands b.token index))
    else .ok [b.combine (pending ++ [e])]

/-- The expressions of a level after a build inside it has supplied its value. -/
def Scope.deliver (scope : Scope) (pending : List Expr) (value : Option Expr) :
    Except BuildError (List Expr) :=
  match scope with
  | .root | .level => .ok (pending ++ value.toList)
  | .operand operator index => operator.apply index pending value

end CertPolicy
