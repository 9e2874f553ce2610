import CertPolicy.Proofs.Machine.Simulation
import CertPolicy.Proofs.Machine.Step

/-!
# The tree spells the tokens

Written without parentheses, an operation is all its operands but the last, then the operator,
then the last operand. A stack of open builds is spelled in the same way from the bottom to the
top, and this spelling grows by one mark for each token that is no parenthesis. When a level
ends its expressions are joined or, if siblings are tolerated, dropped but for the first.
-/

namespace CertPolicy
set_option autoImplicit false

inductive Mark where
  | literal (text : String)
  | field (field : Field)
  | operator (operator : Operator)
  deriving DecidableEq, Repr

namespace Expr

mutual

/-- The leaves and operators of an expression as they are written. -/
def spelling : Expr → List Mark
  | .literal text => [.literal text]
  | .field f => [.field f]
  | .operation operator operands => spellingInfix operator operands

/-- Operands as they are written, with an operator in front of the last one. -/
def spellingInfix (operator : Operator) : List Expr → List Mark
  | [] => [.operator operator]
  | [e] => .operator operator :: spelling e
  | e :: f :: es => spelling e ++ spellingInfix operator (f :: es)

end

def spellings (es : List Expr) : List Mark :=
  es.flatMap spelling

@[simp] theorem spellings_nil : spellings [] = [] := rfl

@[simp] theorem spellings_append (es fs : List Expr) :
    spellings (es ++ fs) = spellings es ++ spellings fs :=
  List.flatMap_append

@[simp] theorem spellings_singleton (e : Expr) : spellings [e] = e.spelling := by
  simp [spellings]

theorem spellingInfix_concat (operator : Operator) (es : List Expr) (e : Expr) :
    spellingInfix operator (es ++ [e]) = spellings es ++ .operator operator :: e.spelling := by
  induction es with
  | nil => simp [spellingInfix]
  | cons f es ih =>
    obtain ⟨g, gs, hg⟩ := List.exists_cons_of_ne_nil (show es ++ [e] ≠ [] by simp)
    rw [List.cons_append, hg, spellingInfix, ← hg, ih]
    simp [spellings]

end Expr

theorem Binding.spelling_combine (b : Binding) (es : List Expr) (e : Expr) :
    (b.combine (es ++ [e])).spelling =
      Expr.spellings es ++ .operator b.operator :: e.spelling := by
  rw [combine, Expr.spelling, Expr.spellingInfix_concat]

/-- What a token stands for, unless it is a parenthesis or names nothing. -/
def Token.mark? (v : Vocabulary) (t : Token) : Option Mark :=
  match t.category with
  | .startLevel | .endLevel => none
  | .operator => (v.operators.find? t.text).map fun b => .operator b.operator
  | .literal => some (.literal t.text)
  | .reference => (v.fields.resolveRequired t.text).toOption.map .field

/-- The marks of all tokens but the parentheses, in order; `none` if one of them names nothing. -/
def marks? (v : Vocabulary) (tokens : List Token) : Option (List Mark) :=
  (tokens.filter fun t => t.category ≠ .startLevel ∧ t.category ≠ .endLevel).mapM (·.mark? v)

@[simp] theorem marks?_nil (v : Vocabulary) : marks? v [] = some [] := rfl

theorem marks?_cons_eq_some {v : Vocabulary} {t : Token} {tokens : List Token}
    {ms ns : List Mark} (ht : marks? v [t] = some ms) (hrest : marks? v tokens = some ns) :
    marks? v (t :: tokens) = some (ms ++ ns) := by
  rw [marks?, ← List.singleton_append, List.filter_append, List.mapM_append]
  rw [marks?] at ht hrest
  rw [ht, hrest]
  rfl

/-- Rejecting siblings, a build keeps all marks in order; tolerating them, it may lose some. -/
def SiblingRule.Keeps (rule : SiblingRule) (kept all : List Mark) : Prop :=
  match rule with
  | .reject => kept = all
  | .keepFirst => kept.Sublist all

namespace SiblingRule
variable {rule : SiblingRule} {as bs cs ds : List Mark}

theorem Keeps.refl (rule : SiblingRule) (as : List Mark) : rule.Keeps as as := by
  cases rule with
  | reject => rfl
  | keepFirst => exact List.Sublist.refl as

theorem Keeps.trans (h : rule.Keeps as bs) (h' : rule.Keeps bs cs) : rule.Keeps as cs := by
  cases rule with
  | reject => exact Eq.trans h h'
  | keepFirst => exact List.Sublist.trans h h'

theorem Keeps.append (h : rule.Keeps as bs) (h' : rule.Keeps cs ds) :
    rule.Keeps (as ++ cs) (bs ++ ds) := by
  cases rule with
  | reject =>
    cases h
    cases h'
    rfl
  | keepFirst => exact List.Sublist.append h h'

theorem keeps_head? {pending : List Expr} (h : rule = .reject → pending.length ≤ 1) :
    rule.Keeps (Expr.spellings pending.head?.toList) (Expr.spellings pending) := by
  cases pending with
  | nil => exact Keeps.refl rule _
  | cons e es =>
    cases rule with
    | reject =>
      have hes : es = [] := by simpa using h rfl
      simp [Keeps, hes]
    | keepFirst =>
      show (Expr.spellings [e]).Sublist (Expr.spellings ([e] ++ es))
      rw [Expr.spellings_append]
      exact List.sublist_append_left _ _

end SiblingRule

/-- The mark that an operator leaves in front of its operand. -/
def Scope.marks (scope : Scope) : List Mark :=
  (scope.binding?.map fun b => Mark.operator b.operator).toList

namespace Machine
variable {v : Vocabulary} {o : Options} {index : Nat} {t : Token} {m m' : Machine}

/-- A stack as it is written, from the bottom to the top. -/
def marksOf (top : Frame) : List Frame → List Mark
  | [] => Expr.spellings top.pending
  | f :: below => marksOf f below ++ (top.scope.marks ++ Expr.spellings top.pending)

theorem marksOf_append_pending (scope : Scope) (es fs : List Expr) (below : List Frame) :
    marksOf ⟨scope, es ++ fs⟩ below = marksOf ⟨scope, es⟩ below ++ Expr.spellings fs := by
  cases below <;> simp [marksOf]

theorem marksOf_eq_append (f : Frame) (below : List Frame) :
    marksOf f below = marksOf ⟨f.scope, []⟩ below ++ Expr.spellings f.pending :=
  marksOf_append_pending f.scope [] f.pending below

theorem keeps_of_close {f g f' : Frame} (h : close o index f g = .ok f') (below : List Frame) :
    o.siblings.Keeps (marksOf f' below) (marksOf f (g :: below)) := by
  obtain ⟨hle, joined, hjoined, rfl⟩ := close_eq_ok_iff.mp h
  have hkeeps := (SiblingRule.Keeps.refl o.siblings (marksOf g below ++ f.scope.marks)).append
    (SiblingRule.keeps_head? hle)
  rw [marksOf_eq_append g] at hkeeps
  rw [marksOf, ← List.append_assoc, marksOf_eq_append g]
  rw [deliver_eq_ok_iff] at hjoined
  cases hscope : f.scope.binding? with
  | none =>
    simp only [hscope] at hjoined
    rw [hjoined, marksOf_eq_append, Expr.spellings_append]
    simpa [Scope.marks, hscope] using hkeeps
  | some b =>
    simp only [hscope] at hjoined
    obtain ⟨e, he, _, rfl⟩ := hjoined
    rw [marksOf_eq_append, Expr.spellings_singleton, Binding.spelling_combine]
    simpa [Scope.marks, hscope, he] using hkeeps

/-- The marks of the stack grow by the mark of the token. -/
theorem Step.keeps (h : Step v o index t m m') :
    ∃ ms, marks? v [t] = some ms ∧
      o.siblings.Keeps (marksOf m'.top m'.below) (marksOf m.top m.below ++ ms) := by
  cases h with
  | startLevel ht =>
    refine ⟨[], by simp [marks?, ht], ?_⟩
    simpa [marksOf, Scope.marks, Scope.binding?] using SiblingRule.Keeps.refl o.siblings _
  | endLevel ht hbelow _ _ hclose =>
    refine ⟨[], by simp [marks?, ht], ?_⟩
    rw [hbelow, List.append_nil]
    exact keeps_of_close hclose _
  | @operator b ht hb =>
    refine ⟨[.operator b.operator], by simp [marks?, Token.mark?, ht, hb], ?_⟩
    simpa [marksOf, Scope.marks, Scope.binding?] using SiblingRule.Keeps.refl o.siblings _
  | literal ht =>
    refine ⟨[.literal t.text], by simp [marks?, Token.mark?, ht], ?_⟩
    rw [collect, marksOf_append_pending, Expr.spellings_singleton]
    exact SiblingRule.Keeps.refl o.siblings _
  | @reference f ht hf =>
    refine ⟨[.field f], by simp [marks?, Token.mark?, ht, hf, Except.toOption], ?_⟩
    rw [collect, marksOf_append_pending, Expr.spellings_singleton]
    exact SiblingRule.Keeps.refl o.siblings _

theorem keeps_of_read {tokens : List Token} (h : m.read v o index tokens = .ok m') :
    ∃ ms, marks? v tokens = some ms ∧
      o.siblings.Keeps (marksOf m'.top m'.below) (marksOf m.top m.below ++ ms) := by
  induction tokens generalizing m index with
  | nil =>
    cases h
    exact ⟨[], rfl, by simpa using SiblingRule.Keeps.refl o.siblings _⟩
  | cons t rest ih =>
    obtain ⟨n, hstep, h⟩ := read_cons_eq_ok_iff.mp h
    obtain ⟨ms, hms, hkeeps⟩ := hstep.keeps
    obtain ⟨ns, hns, hkeeps'⟩ := ih h
    refine ⟨ms ++ ns, marks?_cons_eq_some hms hns, hkeeps'.trans ?_⟩
    rw [← List.append_assoc]
    exact hkeeps.append (SiblingRule.Keeps.refl o.siblings ns)

theorem keeps_of_unwind {top : Frame} {below : List Frame} {value : Option Expr}
    (h : unwind o index top below = .ok value) :
    o.siblings.Keeps (Expr.spellings value.toList) (marksOf top below) := by
  induction below generalizing top with
  | nil =>
    obtain ⟨hle, rfl⟩ := reduce_eq_ok_iff.mp h
    exact SiblingRule.keeps_head? hle
  | cons f below ih =>
    obtain ⟨f', hclose, h⟩ := bind_eq_ok_iff.mp h
    exact (ih h).trans (keeps_of_close hclose below)

end Machine

/-- Rejecting siblings, the policy spells the tokens exactly; tolerating them, it spells some of
them in their order. -/
theorem build_spells_tokens {v : Vocabulary} {o : Options} {tokens : List Token}
    {value : Option Expr} (h : Expr.build v o tokens = .ok value) :
    ∃ ms, marks? v tokens = some ms ∧
      (o.siblings = .reject → Expr.spellings value.toList = ms) ∧
      (o.siblings = .keepFirst → (Expr.spellings value.toList).Sublist ms) := by
  obtain ⟨_, m, hread, hfinish⟩ := Expr.build_eq_ok_iff.mp h
  obtain ⟨ms, hms, hkeeps⟩ := Machine.keeps_of_read hread
  have hvalue := (Machine.keeps_of_unwind (Machine.finish_eq_ok_iff.mp hfinish).1).trans hkeeps
  refine ⟨ms, hms, ?_, ?_⟩
  · intro hreject
    simpa [SiblingRule.Keeps, hreject, Machine.marksOf, Machine.start] using hvalue
  · intro hkeep
    simpa [SiblingRule.Keeps, hkeep, Machine.marksOf, Machine.start] using hvalue

/-- The first closing parenthesis ends an operand, the second one the level around it. -/
theorem negation_spells_tokens :
    Expr.build .standard .strict [⟨"(", .startLevel⟩, ⟨"a", .literal⟩, ⟨"=", .operator⟩,
        ⟨"(", .startLevel⟩, ⟨"!", .operator⟩, ⟨"b", .literal⟩, ⟨")", .endLevel⟩,
        ⟨")", .endLevel⟩] =
      .ok (some (.operation .equals [.literal "a", .operation .logicalNot [.literal "b"]])) ∧
    ∃ ms, marks? .standard [⟨"(", .startLevel⟩, ⟨"a", .literal⟩, ⟨"=", .operator⟩,
        ⟨"(", .startLevel⟩, ⟨"!", .operator⟩, ⟨"b", .literal⟩, ⟨")", .endLevel⟩,
        ⟨")", .endLevel⟩] = some ms ∧
      (SiblingRule.reject = .reject → Expr.spellings
        [.operation .equals [.literal "a", .operation .logicalNot [.literal "b"]]] = ms) ∧
      (SiblingRule.reject = .keepFirst → List.Sublist (Expr.spellings
        [.operation .equals [.literal "a", .operation .logicalNot [.literal "b"]]]) ms) := by
  have h : Expr.build .standard .strict [⟨"(", .startLevel⟩, ⟨"a", .literal⟩, ⟨"=", .operator⟩,
        ⟨"(", .startLevel⟩, ⟨"!", .operator⟩, ⟨"b", .literal⟩, ⟨")", .endLevel⟩,
        ⟨")", .endLevel⟩] =
      .ok (some (.operation .equals [.literal "a", .operation .logicalNot [.literal "b"]])) := by
    decide +kernel
  exact ⟨h, build_spells_tokens h⟩

end CertPolicy
