import CertPolicy.Tagged

/-!
# Policy operators

The eighteen operators of a policy, the word that writes each one in the standard vocabulary,
and the number of operands it takes at least.
-/

namespace CertPolicy
set_option autoImplicit false

/-- How many operands an operator takes: at least one, or at least two. -/
inductive Arity where
  | unary
  | binary
  deriving DecidableEq, Repr

instance : Tagged Arity where
  all := [.unary, .binary]
  tag
    | .unary => "Unary"
    | .binary => "Binary"
  mem_all a := by cases a <;> decide
  nodup_tags := by decide

def Arity.minOperands : Arity → Nat
  | .unary => 1
  | .binary => 2

theorem Arity.minOperands_pos (a : Arity) : 0 < a.minOperands := by
  cases a <;> decide

inductive Operator where
  | equals
  | notEquals
  | greater
  | less
  | regexMatch
  | contains
  | notContains
  | containsRegex
  | size
  | empty
  | notEmpty
  | intersect
  | logicalOr
  | logicalAnd
  | logicalNot
  | bitwiseAnd
  | bitwiseOr
  | bitwiseTest
  deriving DecidableEq, Repr

instance : Tagged Operator where
  all := [.equals, .notEquals, .greater, .less, .regexMatch, .contains, .notContains,
    .containsRegex, .size, .empty, .notEmpty, .intersect, .logicalOr, .logicalAnd, .logicalNot,
    .bitwiseAnd, .bitwiseOr, .bitwiseTest]
  tag
    | .equals => "Equals"
    | .notEquals => "NotEquals"
    | .greater => "Greater"
    | .less => "Less"
    | .regexMatch => "RegexMatch"
    | .contains => "Contains"
    | .notContains => "NotContains"
    | .containsRegex => "ContainsRegex"
    | .size => "Size"
    | .empty => "Empty"
    | .notEmpty => "NotEmpty"
    | .intersect => "Intersect"
    | .logicalOr => "LogicalOr"
    | .logicalAnd => "LogicalAnd"
    | .logicalNot => "LogicalNot"
    | .bitwiseAnd => "BitwiseAnd"
    | .bitwiseOr => "BitwiseOr"
    | .bitwiseTest => "BitwiseTest"
  mem_all a := by cases a <;> decide
  nodup_tags := by decide

namespace Operator

/-- The word that writes the operator in the standard vocabulary. Braces are written `\x7b`
and `\x7d`. -/
def token : Operator → String
  | .equals => "="
  | .notEquals => "!="
  | .greater => ">"
  | .less => "<"
  | .regexMatch => "$"
  | .contains => "\x7b?\x7d"
  | .notContains => "\x7b?\x7d!"
  | .containsRegex => "\x7b\x7d$"
  | .size => "^"
  | .empty => "\x7b\x7d"
  | .notEmpty => "\x7b\x7d!"
  | .intersect => "\x7b?\x7d&"
  | .logicalOr => "||"
  | .logicalAnd => "&&"
  | .logicalNot => "!"
  | .bitwiseAnd => "&"
  | .bitwiseOr => "|"
  | .bitwiseTest => "@@"

def arity : Operator → Arity
  | .size | .empty | .notEmpty | .logicalNot => .unary
  | _ => .binary

end Operator
end CertPolicy
