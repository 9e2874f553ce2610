import CertPolicy.Grammar
import CertPolicy.Vocabulary

/-!
# Reading with an explicit stack

`Machine.build` reads a policy in one pass over the tokens. The builds that are open are the
frames of a stack, the innermost on top. A closing parenthesis ends the top frame, whatever it
supplies, and the end of the policy ends all frames in turn.
-/

namespace CertPolicy
set_option autoImplicit false

/-- An open build: what it supplies, and the expressions it has collected. -/
structure Frame where
  scope : Scope
  pending : List Expr
  deriving Repr

/-- The open builds, the innermost apart from the others, and the number of open levels. -/
structure Machine where
  top : Frame
  below : List Frame
  depth : Nat
  deriving Repr

namespace Machine

def start : Machine := ⟨⟨.root, []⟩, [], 0⟩

def builds (m : Machine) : Nat :=
  m.below.length + 1

def collect (m : Machine) (e : Expr) : Machine :=
  { m with top := { m.top with pending := m.top.pending ++ [e] } }

def enter (o : Options) (index : Nat) (scope : Scope) (m : Machine) :
    Except BuildError Machine :=
  if o.maxRecursion < m.builds + 1 then
    .error (.grammar (.buildsTooDeep o.maxRecursion index))
  else .ok { m with top := ⟨scope, []⟩, below := m.top :: m.below }

/-- Ends a frame at a place and hands its value to the frame below. -/
def close (o : Options) (index : Nat) (f below : Frame) : Except BuildError Frame := do
  let value ← o.siblings.reduce f.pending index
  let pending ← f.scope.deliver below.pending value
  return { below with pending := pending }

def step (v : Vocabulary) (o : Options) (index : Nat) (t : Token) (m : Machine) :
    Except BuildError Machine :=
  match t.category with
  | .startLevel =>
    if o.maxDepth < m.depth + 1 then .error (.grammar (.nestingTooDeep o.maxDepth index))
    else enter o index .level { m with depth := m.depth + 1 }
  | .endLevel =>
    match m.below with
    | [] => .error (.grammar (.strayEndLevel index))
    | f :: below =>
      if m.depth = 0 then .error (.grammar (.strayEndLevel index))
      else if m.top.pending.isEmpty then .error (.grammar (m.top.scope.emptyError index))
      else do
        let top ← close o index m.top f
        return ⟨top, below, m.depth - 1⟩
  | .operator =>
    match v.operators.find? t.text with
    | none => .error (.unknownOperator t.text)
    | some operator => enter o index (.operand operator index) m
  | .literal => .ok (m.collect (.literal t.text))
  | .reference =>
    match v.fields.resolveRequired t.text with
    | .error cause => .error (.resolution cause)
    | .ok f => .ok (m.collect (.field f))

def unwind (o : Options) (index : Nat) (top : Frame) :
    List Frame → Except BuildError (Option Expr)
  | [] => o.siblings.reduce top.pending index
  | f :: below => do
    let top ← close o index top f
    unwind o index top below

def finish (o : Options) (index : Nat) (m : Machine) : Except BuildError (Option Expr) := do
  let value ← unwind o index m.top m.below
  if o.requireBalanced && decide (0 < m.depth) then .error (.grammar (.unclosedLevels m.depth))
  else return value

def read (v : Vocabulary) (o : Options) (index : Nat) (m : Machine) :
    List Token → Except BuildError Machine
  | [] => .ok m
  | t :: rest => do
    let m ← m.step v o index t
    m.read v o (index + 1) rest

def build (v : Vocabulary) (o : Options) (tokens : List Token) :
    Except BuildError (Option Expr) :=
  if o.maxRecursion < 1 then .error (.grammar (.buildsTooDeep o.maxRecursion 0))
  else do
    let m ← start.read v o 0 tokens
    m.finish o tokens.length

end Machine
end CertPolicy
