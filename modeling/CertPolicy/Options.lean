import CertPolicy.Tagged

/-!
# Reading options

How a policy text is read where the grammar leaves a choice, and the limits on its nesting.
-/

namespace CertPolicy
set_option autoImplicit false

/-- What becomes of expressions that stand side by side at the end of a level. -/
inductive SiblingRule where
  | reject
  /-- The first one stays, the others are dropped. -/
  | keepFirst
  deriving DecidableEq, Repr

instance : Tagged SiblingRule where
  all := [.reject, .keepFirst]
  tag
    | .reject => "reject"
    | .keepFirst => "keep_first"
  mem_all a := by cases a <;> decide
  nodup_tags := by decide

structure Options where
  siblings : SiblingRule
  /-- Levels that are open at the end are an error. -/
  requireBalanced : Bool
  /-- A blank ends a literal; otherwise a literal may hold blanks. -/
  splitLiterals : Bool
  /-- The most levels that may be open at once. -/
  maxDepth : Nat
  /-- The most builds that may be open at once: one for the whole policy, one for each open
  level, and one for each operator whose operand is being read. -/
  maxRecursion : Nat
  deriving DecidableEq, Repr

namespace Options

/-- All checks are made. These are the options that hold where nothing else is said. -/
def strict : Options := ⟨.reject, true, true, 256, 1024⟩

/-- Unclosed levels and unjoined siblings are tolerated, and literals may hold blanks. -/
def compatible : Options := ⟨.keepFirst, false, false, 256, 1024⟩

end Options
end CertPolicy
