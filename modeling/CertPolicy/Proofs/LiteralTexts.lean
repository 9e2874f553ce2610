import CertPolicy.Proofs.Machine.Simulation

/-!
# What literals say

A build hands the text of a literal on and looks at nothing of it. Two token sequences that differ
in the texts of literals only are therefore built alike, step by step: to trees that differ in these
texts only, or to the same error. The texts of all other tokens name something in the vocabulary,
and only these stand in errors.
-/

namespace CertPolicy
set_option autoImplicit false

/-- Changes the text of a literal, and no other token. -/
def Token.mapLiteral (f : String → String) (t : Token) : Token :=
  if t.category = .literal then { t with text := f t.text } else t

namespace Token
variable {f : String → String} {t : Token}

@[simp] theorem category_mapLiteral : (t.mapLiteral f).category = t.category := by
  unfold mapLiteral
  split <;> rfl

theorem mapLiteral_of_literal (ht : t.category = .literal) :
    t.mapLiteral f = { t with text := f t.text } :=
  if_pos ht

theorem mapLiteral_of_ne (ht : t.category ≠ .literal) : t.mapLiteral f = t :=
  if_neg ht

end Token

namespace Expr

mutual

/-- Changes the texts of all literals in an expression. -/
def mapLiterals (f : String → String) : Expr → Expr
  | .operation operator es => .operation operator (mapLiteralsAll f es)
  | .literal text => .literal (f text)
  | .field g => .field g

def mapLiteralsAll (f : String → String) : List Expr → List Expr
  | [] => []
  | e :: es => mapLiterals f e :: mapLiteralsAll f es

end

theorem mapLiterals_operation (f : String → String) (operator : Operator) (es : List Expr) :
    (operation operator es).mapLiterals f = .operation operator (es.map (mapLiterals f)) := by
  rw [mapLiterals]
  congr 1
  induction es with
  | nil => rfl
  | cons e es ih => rw [mapLiteralsAll, ih, List.map_cons]

end Expr

section Rules
variable {f : String → String} {index : Nat} {pending : List Expr}

theorem reduce_map (rule : SiblingRule) (g : Expr → Expr) :
    rule.reduce (pending.map g) index = Option.map g <$> rule.reduce pending index := by
  simp only [SiblingRule.reduce, List.length_map, List.head?_map]
  split <;> rfl

theorem apply_map (b : Binding) (operand : Option Expr) :
    b.apply index (pending.map (Expr.mapLiterals f)) (operand.map (Expr.mapLiterals f)) =
      List.map (Expr.mapLiterals f) <$> b.apply index pending operand := by
  cases operand with
  | none => rfl
  | some e =>
    simp only [Option.map_some, Binding.apply, List.length_append, List.length_map,
      List.length_singleton]
    split
    · rfl
    · simp [Binding.combine, Expr.mapLiterals_operation, Functor.map, Except.map]

theorem deliver_map (scope : Scope) (value : Option Expr) :
    scope.deliver (pending.map (Expr.mapLiterals f)) (value.map (Expr.mapLiterals f)) =
      List.map (Expr.mapLiterals f) <$> scope.deliver pending value := by
  cases scope with
  | operand b place => exact apply_map b value
  | root | level => cases value <;> simp [Scope.deliver, Functor.map, Except.map]

end Rules

def Frame.mapLiterals (f : String → String) (frame : Frame) : Frame :=
  { frame with pending := frame.pending.map (Expr.mapLiterals f) }

namespace Machine
variable {v : Vocabulary} {o : Options} {index : Nat} {t : Token} {m : Machine}

def mapLiterals (f : String → String) (m : Machine) : Machine :=
  ⟨m.top.mapLiterals f, m.below.map (Frame.mapLiterals f), m.depth⟩

variable (f : String → String)

@[simp] theorem builds_mapLiterals : (m.mapLiterals f).builds = m.builds := by
  simp [builds, mapLiterals]

@[simp] theorem depth_mapLiterals : (m.mapLiterals f).depth = m.depth := rfl

theorem enter_map (scope : Scope) :
    enter o index scope (m.mapLiterals f) = mapLiterals f <$> enter o index scope m := by
  simp only [enter, builds_mapLiterals]
  split <;> rfl

theorem close_map (top below : Frame) :
    close o index (top.mapLiterals f) (below.mapLiterals f) =
      Frame.mapLiterals f <$> close o index top below := by
  simp only [close, Frame.mapLiterals, reduce_map, deliver_map, bind_map_left, map_bind]
  rfl

theorem collect_map (e : Expr) :
    (m.mapLiterals f).collect (e.mapLiterals f) = (m.collect e).mapLiterals f := by
  simp [collect, mapLiterals, Frame.mapLiterals]

/-- A token does the same whatever literals say. -/
theorem step_map :
    (m.mapLiterals f).step v o index (t.mapLiteral f) = mapLiterals f <$> m.step v o index t := by
  cases ht : t.category with
  | startLevel =>
    rw [Token.mapLiteral_of_ne (by simp [ht])]
    simp only [step, ht]
    rw [apply_ite (Functor.map _), ← enter_map f]
    rfl
  | endLevel =>
    rw [Token.mapLiteral_of_ne (by simp [ht])]
    cases hbelow : m.below with
    | nil =>
      simp only [step, ht, mapLiterals, hbelow, List.map_nil]
      rfl
    | cons g below =>
      have hempty : (m.top.mapLiterals f).pending.isEmpty = m.top.pending.isEmpty :=
        List.isEmpty_map
      simp only [step, ht, mapLiterals, hbelow, List.map_cons, hempty, close_map, bind_map_left]
      rw [apply_ite (Functor.map _), apply_ite (Functor.map _), map_bind]
      rfl
  | operator =>
    rw [Token.mapLiteral_of_ne (by simp [ht])]
    simp only [step, ht]
    cases v.operators.find? t.text with
    | none => rfl
    | some b => exact enter_map f (.operand b index)
  | literal =>
    rw [Token.mapLiteral_of_literal ht]
    simp only [step, ht]
    exact congrArg Except.ok (collect_map f (.literal t.text))
  | reference =>
    rw [Token.mapLiteral_of_ne (by simp [ht])]
    simp only [step, ht]
    cases v.fields.resolveRequired t.text with
    | error cause => rfl
    | ok g => exact congrArg Except.ok (collect_map f (.field g))

theorem read_map (tokens : List Token) :
    (m.mapLiterals f).read v o index (tokens.map (Token.mapLiteral f)) =
      mapLiterals f <$> m.read v o index tokens := by
  induction tokens generalizing m index with
  | nil => rfl
  | cons t rest ih =>
    simp only [List.map_cons, read, step_map, bind_map_left, map_bind, ih]

theorem unwind_map (top : Frame) (below : List Frame) :
    unwind o index (top.mapLiterals f) (below.map (Frame.mapLiterals f)) =
      Option.map (Expr.mapLiterals f) <$> unwind o index top below := by
  induction below generalizing top with
  | nil => exact reduce_map o.siblings (Expr.mapLiterals f)
  | cons g below ih =>
    simp only [List.map_cons, unwind, close_map, bind_map_left, map_bind, ih]

theorem finish_map :
    (m.mapLiterals f).finish o index = Option.map (Expr.mapLiterals f) <$> m.finish o index := by
  have hunwind : unwind o index (m.mapLiterals f).top (m.mapLiterals f).below =
      Option.map (Expr.mapLiterals f) <$> unwind o index m.top m.below := unwind_map f m.top m.below
  simp only [finish, hunwind, depth_mapLiterals, bind_map_left, map_bind]
  refine bind_congr fun value => ?_
  rw [apply_ite (Functor.map _)]
  rfl

end Machine

theorem build_mapLiteral (v : Vocabulary) (o : Options) (f : String → String)
    (tokens : List Token) :
    Expr.build v o (tokens.map (Token.mapLiteral f)) =
      Option.map (Expr.mapLiterals f) <$> Expr.build v o tokens := by
  rw [Expr.build_eq_machine_build, Expr.build_eq_machine_build, Machine.build, Machine.build,
    List.length_map]
  split
  · rfl
  · have hread : Machine.start.read v o 0 (tokens.map (Token.mapLiteral f)) =
        Machine.mapLiterals f <$> Machine.start.read v o 0 tokens :=
      Machine.read_map f (m := .start) tokens
    simp only [hread, bind_map_left, map_bind, Machine.finish_map]

/-- Whatever is put in the place of the texts of literals, a policy is built alike, with the same
change in its tree, and it fails exactly if it failed before, with the same error. -/
theorem build_map_literals (v : Vocabulary) (o : Options) (f : String → String)
    (tokens : List Token) :
    Expr.build v o (tokens.map (Token.mapLiteral f)) =
        Option.map (Expr.mapLiterals f) <$> Expr.build v o tokens ∧
      ∀ e, Expr.build v o (tokens.map (Token.mapLiteral f)) = .error e ↔
        Expr.build v o tokens = .error e := by
  have hbuild := build_mapLiteral v o f tokens
  refine ⟨hbuild, fun e => ?_⟩
  rw [hbuild]
  cases Expr.build v o tokens with
  | error cause => exact Iff.rfl
  | ok value => exact iff_of_false nofun nofun

end CertPolicy
