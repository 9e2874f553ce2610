import CertPolicy.Tagged

/-!
# Tokens

A policy text is read as a sequence of tokens, each a piece of text with its category.
-/

namespace CertPolicy
set_option autoImplicit false

/-- The part a piece of text plays in a policy. -/
inductive Category where
  | startLevel
  | endLevel
  | operator
  | literal
  | reference
  deriving DecidableEq, Repr

instance : Tagged Category where
  all := [.startLevel, .endLevel, .operator, .literal, .reference]
  tag
    | .startLevel => "StartLevel"
    | .endLevel => "EndLevel"
    | .operator => "Operator"
    | .literal => "Literal"
    | .reference => "CertificateReference"
  mem_all a := by cases a <;> decide
  nodup_tags := by decide

/-- A reserved word of these categories may begin a longer one, so a reader waits for one
character more before it settles on the word. -/
def Category.isHoldable : Category → Bool
  | .operator | .reference => true
  | .startLevel | .endLevel | .literal => false

/-- A piece of policy text, without surrounding blanks, and its category. -/
structure Token where
  text : String
  category : Category
  deriving DecidableEq, Repr

/-- The form a token is shown in, such as `Literal(a)`. -/
def Token.display (t : Token) : String :=
  Tagged.tag t.category ++ "(" ++ t.text ++ ")"

end CertPolicy
