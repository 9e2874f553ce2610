import CertPolicy.Grammar

/-!
# Outcomes of the grammar's rules

When a rule of the grammar succeeds and with what value, and how successes are sequenced.
-/

namespace CertPolicy
set_option autoImplicit false

section Sequencing
variable {ε α β : Type}

instance decidableEqExcept [DecidableEq ε] [DecidableEq α] : DecidableEq (Except ε α)
  | .ok a, .ok b =>
    if h : a = b then isTrue (by rw [h]) else isFalse fun he => h (Except.ok.inj he)
  | .error e, .error f =>
    if h : e = f then isTrue (by rw [h]) else isFalse fun he => h (Except.error.inj he)
  | .ok _, .error _ | .error _, .ok _ => isFalse fun h => by injection h

@[simp] theorem ok_bind (a : α) (f : α → Except ε β) : (Except.ok a >>= f) = f a := rfl

@[simp] theorem error_bind (e : ε) (f : α → Except ε β) :
    ((Except.error e : Except ε α) >>= f) = .error e := rfl

@[simp] theorem pure_eq_ok (a : α) : (pure a : Except ε α) = .ok a := rfl

theorem bind_eq_ok_iff {x : Except ε α} {f : α → Except ε β} {b : β} :
    (x >>= f) = .ok b ↔ ∃ a, x = .ok a ∧ f a = .ok b := by
  cases x with
  | error e =>
    constructor
    · intro h
      cases h
    · rintro ⟨_, h, _⟩
      cases h
  | ok a =>
    constructor
    · exact fun h => ⟨a, rfl, h⟩
    · rintro ⟨_, ha, h⟩
      cases ha
      exact h

theorem bind_eq_error_iff {x : Except ε α} {f : α → Except ε β} {e : ε} :
    (x >>= f) = .error e ↔ x = .error e ∨ ∃ a, x = .ok a ∧ f a = .error e := by
  cases x with
  | error e' =>
    rw [error_bind, Except.error.injEq, Except.error.injEq]
    constructor
    · exact Or.inl
    · rintro (h | ⟨_, h, _⟩)
      · exact h
      · cases h
  | ok a =>
    rw [ok_bind]
    constructor
    · exact fun h => Or.inr ⟨a, rfl, h⟩
    · rintro (h | ⟨_, ha, h⟩)
      · cases h
      · cases ha
        exact h

end Sequencing

/-- A level ends unless siblings are rejected and there are some. Its value is then the first
expression, if there is any. -/
theorem reduce_eq_ok_iff {rule : SiblingRule} {pending : List Expr} {index : Nat}
    {value : Option Expr} :
    rule.reduce pending index = .ok value ↔
      (rule = .reject → pending.length ≤ 1) ∧ value = pending.head? := by
  unfold SiblingRule.reduce
  split
  · rename_i h
    simp only [reduceCtorEq, false_iff, not_and]
    intro hle
    have := hle h.1
    omega
  · rename_i h
    rw [not_and, Nat.not_lt] at h
    rw [Except.ok.injEq, eq_comm]
    exact (and_iff_right h).symm

/-- A level ends with an error only if siblings are rejected and there are some. -/
theorem reduce_eq_error_iff {rule : SiblingRule} {pending : List Expr} {index : Nat}
    {e : BuildError} :
    rule.reduce pending index = .error e ↔ rule = .reject ∧ 1 < pending.length ∧
      e = .grammar (.unjoinedSiblings pending.length index) := by
  unfold SiblingRule.reduce
  split
  · rename_i h
    rw [Except.error.injEq, eq_comm, ← and_assoc]
    exact (and_iff_right h).symm
  · rename_i h
    simp only [reduceCtorEq, false_iff]
    rintro ⟨hrule, hlength, _⟩
    exact h ⟨hrule, hlength⟩

/-- Besides its operand, an operator needs an expression only if it is binary. -/
theorem Binding.minOperands_le_iff {b : Binding} {pending : List Expr} :
    b.minOperands ≤ pending.length + 1 ↔ (b.arity = .binary → pending ≠ []) := by
  unfold minOperands
  cases b.arity <;> simp [Arity.minOperands, List.length_pos_iff, Nat.succ_le_iff]

theorem apply_eq_ok_iff {b : Binding} {index : Nat} {pending joined : List Expr}
    {operand : Option Expr} :
    b.apply index pending operand = .ok joined ↔
      ∃ e, operand = some e ∧ b.minOperands ≤ pending.length + 1 ∧
        joined = [b.combine (pending ++ [e])] := by
  cases operand with
  | none => simp [Binding.apply]
  | some e =>
    simp only [Binding.apply, List.length_append, List.length_singleton]
    split
    · rename_i h
      simp only [reduceCtorEq, Option.some.injEq, false_iff]
      rintro ⟨_, rfl, hle, _⟩
      omega
    · rename_i h
      rw [Nat.not_lt] at h
      simp only [Except.ok.injEq, Option.some.injEq, exists_eq_left', h, true_and]
      exact eq_comm

/-- An operator fails for want of its operand, or for want of anything in front of it. -/
theorem apply_eq_error_iff {b : Binding} {index : Nat} {pending : List Expr}
    {operand : Option Expr} {e : BuildError} :
    b.apply index pending operand = .error e ↔
      operand = none ∧ e = .grammar (.missingOperand b.token index) ∨
      operand ≠ none ∧ (b.arity = .binary ∧ pending = []) ∧
        e = .grammar (.tooFewOperands b.token index) := by
  cases operand with
  | none => simp [Binding.apply, eq_comm]
  | some x =>
    have hfew : (pending ++ [x]).length < b.minOperands ↔ b.arity = .binary ∧ pending = [] := by
      rw [← Nat.not_le, List.length_append, List.length_singleton, Binding.minOperands_le_iff,
        Classical.not_imp, ne_eq, Classical.not_not]
    simp only [Binding.apply, hfew]
    split
    · rename_i h
      simp [h, eq_comm]
    · rename_i h
      simp [h]

/-- The operator whose operand a build reads, if it reads one. -/
def Scope.binding? : Scope → Option Binding
  | .operand b _ => some b
  | .root | .level => none

/-- A value joins the expressions that wait for it; the value of an operand makes an operation
of them all. Only the operator of the scope matters. -/
theorem deliver_eq_ok_iff {scope : Scope} {pending joined : List Expr} {value : Option Expr} :
    scope.deliver pending value = .ok joined ↔
      match scope.binding? with
      | none => joined = pending ++ value.toList
      | some b => ∃ e, value = some e ∧ b.minOperands ≤ pending.length + 1 ∧
          joined = [b.combine (pending ++ [e])] := by
  cases scope with
  | operand b index => exact apply_eq_ok_iff
  | root | level => simp [Scope.deliver, Scope.binding?, eq_comm]

end CertPolicy
