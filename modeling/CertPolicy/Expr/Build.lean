import CertPolicy.Grammar
import CertPolicy.Vocabulary

/-!
# From tokens to expressions

`Expr.build` reads a policy by recursive descent. Operators stand between their operands and
have no precedence: what has been collected at a level is the left side, and one build of its
own reads the right side up to the end of the level.

The nesting depth is shared by all builds, so a closing parenthesis ends the innermost build,
which may be that of an operand. Only parentheses count as nesting; the builds that are open at
once have a limit of their own.
-/

namespace CertPolicy
set_option autoImplicit false

/-- What a build supplies that began in front of some tokens, and where it ended: the tokens
behind it, the place of the first of them, and the levels open there. -/
structure Built (tokens : List Token) where
  value : Option Expr
  rest : List Token
  index : Nat
  depth : Nat
  length_le : rest.length ≤ tokens.length

/-- A build as the last part of one that began earlier. -/
def Built.within {rest tokens : List Token} (b : Built rest)
    (h : rest.length ≤ tokens.length) : Built tokens :=
  { b with length_le := Nat.le_trans b.length_le h }

namespace Expr

/-- Goes on with a build that has collected the expressions `pending`, in front of the token at
`index` and with `depth` open levels; `builds` are open, this one included. -/
def buildFrom (v : Vocabulary) (o : Options) (scope : Scope) (builds : Nat)
    (pending : List Expr) (index depth : Nat) :
    (tokens : List Token) → Except BuildError (Built tokens)
  | [] => do
    let value ← o.siblings.reduce pending index
    return ⟨value, [], index, depth, Nat.le_refl _⟩
  | t :: rest =>
    match t.category with
    | .startLevel =>
      if o.maxDepth < depth + 1 then .error (.grammar (.nestingTooDeep o.maxDepth index))
      else if o.maxRecursion < builds + 1 then
        .error (.grammar (.buildsTooDeep o.maxRecursion index))
      else do
        let b ← buildFrom v o .level (builds + 1) [] (index + 1) (depth + 1) rest
        have no_longer := b.length_le
        let last ← buildFrom v o scope builds (pending ++ b.value.toList) b.index b.depth b.rest
        return last.within (Nat.le_succ_of_le no_longer)
    | .endLevel =>
      if depth = 0 then .error (.grammar (.strayEndLevel index))
      else if pending.isEmpty then .error (.grammar (scope.emptyError index))
      else do
        let value ← o.siblings.reduce pending index
        return ⟨value, rest, index + 1, depth - 1, Nat.le_succ _⟩
    | .operator =>
      match v.operators.find? t.text with
      | none => .error (.unknownOperator t.text)
      | some operator =>
        if o.maxRecursion < builds + 1 then
          .error (.grammar (.buildsTooDeep o.maxRecursion index))
        else do
          let b ← buildFrom v o (.operand operator index) (builds + 1) [] (index + 1) depth rest
          have no_longer := b.length_le
          let joined ← operator.apply index pending b.value
          let last ← buildFrom v o scope builds joined b.index b.depth b.rest
          return last.within (Nat.le_succ_of_le no_longer)
    | .literal => do
      let last ← buildFrom v o scope builds (pending ++ [.literal t.text]) (index + 1) depth rest
      return last.within (Nat.le_succ _)
    | .reference =>
      match v.fields.resolveRequired t.text with
      | .error cause => .error (.resolution cause)
      | .ok f => do
        let last ← buildFrom v o scope builds (pending ++ [.field f]) (index + 1) depth rest
        return last.within (Nat.le_succ _)
termination_by tokens => tokens.length
decreasing_by
  · exact Nat.lt_succ_self _
  · exact Nat.lt_succ_of_le no_longer
  · exact Nat.lt_succ_self _
  · exact Nat.lt_succ_of_le no_longer
  · exact Nat.lt_succ_self _
  · exact Nat.lt_succ_self _

/-- The policy that a token sequence spells, `none` if it spells nothing at all. -/
def build (v : Vocabulary) (o : Options) (tokens : List Token) :
    Except BuildError (Option Expr) :=
  if o.maxRecursion < 1 then .error (.grammar (.buildsTooDeep o.maxRecursion 0))
  else do
    let b ← buildFrom v o .root 1 [] 0 0 tokens
    if o.requireBalanced && decide (0 < b.depth) then
      .error (.grammar (.unclosedLevels b.depth))
    else return b.value

end Expr
end CertPolicy
