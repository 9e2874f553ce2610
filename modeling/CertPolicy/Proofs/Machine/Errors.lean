import CertPolicy.Proofs.Machine.Simulation
import CertPolicy.Proofs.Machine.Step

/-!
# Where errors come from

A build fails at a token that cannot be read behind the tokens before it, or at the end of the
policy, where the open builds end in turn (`BuildFails`). `Machine.StepFails` lists what keeps a
token from being read, and `Machine.CloseFails` what keeps a build from ending. In either case the
tokens break the grammar, unless a token names nothing in the vocabulary.
-/

namespace CertPolicy
set_option autoImplicit false

/-- The error breaks a rule of the grammar. -/
def BuildError.Grammatical (e : BuildError) : Prop :=
  ∃ cause, e = .grammar cause

/-- A token names nothing, and the error says so. -/
inductive Token.Unbound (v : Vocabulary) (t : Token) : BuildError → Prop
  | operator (ht : t.category = .operator) (hb : v.operators.find? t.text = none) :
      Unbound v t (.unknownOperator t.text)
  | reference {cause : ResolutionError} (ht : t.category = .reference)
      (hf : v.fields.resolveRequired t.text = .error cause) : Unbound v t (.resolution cause)

variable {v : Vocabulary} {o : Options} {index : Nat} {e : BuildError}

namespace Machine
variable {t : Token} {tokens : List Token} {m m' : Machine} {f g top : Frame} {below : List Frame}

/-- Why a frame cannot end at a place and hand its value to the frame below, and the error then:
it has siblings, or it reads an operand and is empty, or nothing stands in front of the operator. -/
inductive CloseFails (o : Options) (index : Nat) (f below : Frame) : BuildError → Prop
  | siblings (hreject : o.siblings = .reject) (hpending : 1 < f.pending.length) :
      CloseFails o index f below (.grammar (.unjoinedSiblings f.pending.length index))
  | operand {b : Binding} {i : Nat} (hscope : f.scope = .operand b i) (hpending : f.pending = []) :
      CloseFails o index f below (.grammar (.missingOperand b.token i))
  | left {b : Binding} {i : Nat} (hscope : f.scope = .operand b i) (hpending : f.pending ≠ [])
      (harity : b.arity = .binary) (hbelow : below.pending = []) :
      CloseFails o index f below (.grammar (.tooFewOperands b.token i))

theorem closeFails_of_close (h : close o index f g = .error e) : CloseFails o index f g e := by
  rcases bind_eq_error_iff.mp h with h | ⟨value, hvalue, h⟩
  · obtain ⟨hreject, hpending, rfl⟩ := reduce_eq_error_iff.mp h
    exact .siblings hreject hpending
  · obtain ⟨_, rfl⟩ := reduce_eq_ok_iff.mp hvalue
    rcases bind_eq_error_iff.mp h with h | ⟨_, _, h⟩
    · cases hscope : f.scope with
      | root | level => simp [Scope.deliver, hscope] at h
      | operand b i =>
        rw [hscope, Scope.deliver, apply_eq_error_iff, ne_eq, List.head?_eq_none_iff] at h
        rcases h with ⟨hpending, rfl⟩ | ⟨hpending, ⟨harity, hbelow⟩, rfl⟩
        · exact .operand hscope hpending
        · exact .left hscope hpending harity hbelow
    · cases h

theorem CloseFails.grammatical (h : CloseFails o index f g e) : e.Grammatical := by
  cases h with
  | siblings | operand | left => exact ⟨_, rfl⟩

/-- Why a token cannot be read, and the error then. -/
inductive StepFails (v : Vocabulary) (o : Options) (index : Nat) (t : Token) (m : Machine) :
    BuildError → Prop
  | depth (ht : t.category = .startLevel) (hdepth : o.maxDepth < m.depth + 1) :
      StepFails v o index t m (.grammar (.nestingTooDeep o.maxDepth index))
  | builds (ht : t.category = .startLevel ∨ t.category = .operator)
      (hbuilds : o.maxRecursion < m.builds + 1) :
      StepFails v o index t m (.grammar (.buildsTooDeep o.maxRecursion index))
  | stray (ht : t.category = .endLevel) (hdepth : m.below = [] ∨ m.depth = 0) :
      StepFails v o index t m (.grammar (.strayEndLevel index))
  | level (ht : t.category = .endLevel) (hbelow : m.below ≠ []) (hpending : m.top.pending = [])
      (hscope : m.top.scope.binding? = none) :
      StepFails v o index t m (.grammar (.emptyLevel index))
  | operand {b : Binding} {i : Nat} (ht : t.category = .endLevel) (hbelow : m.below ≠ [])
      (hpending : m.top.pending = []) (hscope : m.top.scope = .operand b i) :
      StepFails v o index t m (.grammar (.missingOperand b.token i))
  | close {f : Frame} {below : List Frame} {e : BuildError} (ht : t.category = .endLevel)
      (hbelow : m.below = f :: below) (hpending : m.top.pending ≠ [])
      (hclose : CloseFails o index m.top f e) : StepFails v o index t m e
  | unbound {e : BuildError} (hunbound : t.Unbound v e) : StepFails v o index t m e

theorem enter_eq_error_iff {scope : Scope} :
    enter o index scope m = .error e ↔
      o.maxRecursion < m.builds + 1 ∧ e = .grammar (.buildsTooDeep o.maxRecursion index) := by
  unfold enter
  split
  · rename_i h
    rw [Except.error.injEq, eq_comm]
    exact (and_iff_right h).symm
  · rename_i h
    simp [h]

theorem stepFails_of_step (h : m.step v o index t = .error e) : StepFails v o index t m e := by
  unfold step at h
  cases ht : t.category with
  | startLevel =>
    simp only [ht] at h
    split at h
    · rename_i hdepth
      cases h
      exact .depth ht hdepth
    · obtain ⟨hbuilds, rfl⟩ := enter_eq_error_iff.mp h
      exact .builds (Or.inl ht) hbuilds
  | endLevel =>
    simp only [ht] at h
    cases hbelow : m.below with
    | nil =>
      simp only [hbelow] at h
      cases h
      exact .stray ht (Or.inl hbelow)
    | cons f below =>
      simp only [hbelow] at h
      split at h
      · rename_i hdepth
        cases h
        exact .stray ht (Or.inr hdepth)
      · split at h
        · rename_i hpending
          rw [List.isEmpty_iff] at hpending
          have hne : m.below ≠ [] := by simp [hbelow]
          cases hscope : m.top.scope with
          | root | level =>
            rw [hscope] at h
            cases h
            exact .level ht hne hpending (by rw [hscope, Scope.binding?])
          | operand b i =>
            rw [hscope] at h
            cases h
            exact .operand ht hne hpending hscope
        · rename_i hpending
          rcases bind_eq_error_iff.mp h with h | ⟨_, _, h⟩
          · exact .close ht hbelow (by simpa using hpending) (closeFails_of_close h)
          · cases h
  | operator =>
    simp only [ht] at h
    cases hb : v.operators.find? t.text with
    | none =>
      simp only [hb] at h
      cases h
      exact .unbound (.operator ht hb)
    | some b =>
      simp only [hb] at h
      obtain ⟨hbuilds, rfl⟩ := enter_eq_error_iff.mp h
      exact .builds (Or.inr ht) hbuilds
  | literal =>
    simp only [ht] at h
    cases h
  | reference =>
    simp only [ht] at h
    cases hf : v.fields.resolveRequired t.text with
    | error cause =>
      simp only [hf] at h
      cases h
      exact .unbound (.reference ht hf)
    | ok f =>
      simp only [hf] at h
      cases h

theorem StepFails.grammatical_or_unbound (h : StepFails v o index t m e) :
    e.Grammatical ∨ t.Unbound v e := by
  cases h with
  | depth | builds | stray | level | operand => exact Or.inl ⟨_, rfl⟩
  | close _ _ _ hclose => exact Or.inl hclose.grammatical
  | unbound hunbound => exact Or.inr hunbound

/-- Reading fails at the first token that cannot be read. -/
theorem read_eq_error_iff :
    m.read v o index tokens = .error e ↔ ∃ ts t rest m', tokens = ts ++ t :: rest ∧
      m.read v o index ts = .ok m' ∧ m'.step v o (index + ts.length) t = .error e := by
  constructor
  · intro h
    induction tokens generalizing m index with
    | nil => cases h
    | cons t rest ih =>
      rcases bind_eq_error_iff.mp h with h | ⟨n, hn, h⟩
      · exact ⟨[], t, rest, m, rfl, rfl, h⟩
      · obtain ⟨ts, u, rest, m', rfl, hread, hstep⟩ := ih h
        refine ⟨t :: ts, u, rest, m', rfl, bind_eq_ok_iff.mpr ⟨n, hn, hread⟩, ?_⟩
        rwa [List.length_cons, ← Nat.add_assoc, Nat.add_right_comm]
  · rintro ⟨ts, t, rest, m', rfl, hread, hstep⟩
    rw [read_append, hread, ok_bind, read, hstep, error_bind]

/-- Why a stack cannot end at a place, and the error then. Above an operand that is missing there
are only levels, and nothing has been collected in them. -/
inductive UnwindFails (o : Options) (index : Nat) (stack : List Frame) : BuildError → Prop
  | siblings {count : Nat} (hreject : o.siblings = .reject) (hcount : 1 < count) :
      UnwindFails o index stack (.grammar (.unjoinedSiblings count index))
  | operand {above below : List Frame} {f g : Frame} {b : Binding} {i : Nat}
      (hstack : stack = above ++ f :: g :: below)
      (habove : ∀ a ∈ above, a.pending = [] ∧ a.scope.binding? = none)
      (hscope : f.scope = .operand b i) (hpending : f.pending = []) :
      UnwindFails o index stack (.grammar (.missingOperand b.token i))
  | left {f g : Frame} {b : Binding} {i : Nat} (hstack : [f, g] <:+: stack)
      (hscope : f.scope = .operand b i) (harity : b.arity = .binary) (hbelow : g.pending = []) :
      UnwindFails o index stack (.grammar (.tooFewOperands b.token i))

theorem UnwindFails.grammatical {stack : List Frame} (h : UnwindFails o index stack e) :
    e.Grammatical := by
  cases h with
  | siblings | operand | left => exact ⟨_, rfl⟩

theorem UnwindFails.cons {stack : List Frame} (h : UnwindFails o index stack e)
    (hpending : f.pending = []) (hscope : f.scope.binding? = none) :
    UnwindFails o index (f :: stack) e := by
  cases h with
  | siblings hreject hcount => exact .siblings hreject hcount
  | @operand above below g k b i hstack habove hoperand hempty =>
    have hstack' : f :: stack = (f :: above) ++ g :: k :: below := by rw [hstack, List.cons_append]
    exact .operand hstack' (List.forall_mem_cons.mpr ⟨⟨hpending, hscope⟩, habove⟩) hoperand hempty
  | left hstack hoperand harity hbelow =>
    exact .left (hstack.trans (List.suffix_cons f stack).isInfix) hoperand harity hbelow

/-- Ending the top frame with a value changes no scope, and nothing below the frame that takes
the value. -/
theorem UnwindFails.of_close (h : UnwindFails o index (f :: below) e) (hpending : f.pending ≠ [])
    (hscope : f.scope = g.scope) (top : Frame) : UnwindFails o index (top :: g :: below) e := by
  cases h with
  | siblings hreject hcount => exact .siblings hreject hcount
  | @operand above _ k _ _ _ hstack habove _ hempty =>
    cases above with
    | nil =>
      obtain ⟨rfl, _⟩ := List.cons.inj hstack
      exact absurd hempty hpending
    | cons a above =>
      obtain ⟨rfl, _⟩ := List.cons.inj hstack
      exact absurd (habove f List.mem_cons_self).1 hpending
  | @left k l b i hstack hoperand harity hbelow =>
    rcases List.infix_cons_iff.mp hstack with hhead | hstack
    · obtain ⟨rfl, hl⟩ := List.cons_prefix_cons.mp hhead
      refine .left ?_ (hscope ▸ hoperand) harity hbelow
      exact ((List.cons_prefix_cons.mpr ⟨rfl, hl⟩).isInfix).trans (List.suffix_cons top _).isInfix
    · refine .left (hstack.trans ?_) hoperand harity hbelow
      exact ((List.suffix_cons g below).trans (List.suffix_cons top _)).isInfix

theorem unwindFails_of_unwind (h : unwind o index top below = .error e) :
    UnwindFails o index (top :: below) e := by
  induction below generalizing top with
  | nil =>
    obtain ⟨hreject, hcount, rfl⟩ := reduce_eq_error_iff.mp h
    exact .siblings hreject hcount
  | cons g below ih =>
    rcases bind_eq_error_iff.mp h with hclose | ⟨f, hclose, hrest⟩
    · cases closeFails_of_close hclose with
      | siblings hreject hcount => exact .siblings hreject hcount
      | operand hscope hpending => exact .operand (List.nil_append _).symm nofun hscope hpending
      | left hscope _ harity hbelow => exact .left ⟨[], below, rfl⟩ hscope harity hbelow
    · by_cases hpending : top.pending = []
      · obtain ⟨hscope, rfl⟩ := (close_nil_eq_ok_iff hpending).mp hclose
        exact (ih hrest).cons hpending hscope
      · exact (ih hrest).of_close (ne_nil_of_close hclose hpending) (scope_of_close hclose) top

/-- Why a policy cannot end at a place, and the error then. -/
inductive FinishFails (o : Options) (index : Nat) (m : Machine) : BuildError → Prop
  | unwind {e : BuildError} (hunwind : UnwindFails o index (m.top :: m.below) e) :
      FinishFails o index m e
  | levels (hrequired : o.requireBalanced = true) (hdepth : 0 < m.depth) :
      FinishFails o index m (.grammar (.unclosedLevels m.depth))

theorem finishFails_of_finish (h : m.finish o index = .error e) : FinishFails o index m e := by
  rcases bind_eq_error_iff.mp h with h | ⟨_, _, h⟩
  · exact .unwind (unwindFails_of_unwind h)
  · split at h
    · rename_i hlevels
      rw [Bool.and_eq_true, decide_eq_true_eq] at hlevels
      cases h
      exact .levels hlevels.1 hlevels.2
    · cases h

theorem FinishFails.grammatical (h : FinishFails o index m e) : e.Grammatical := by
  cases h with
  | unwind hunwind => exact hunwind.grammatical
  | levels => exact ⟨_, rfl⟩

end Machine

/-- How tokens are not read as a policy: no build may be opened at all, or a token cannot be read
behind the tokens before it, or the builds that are open at the end do not end there. -/
inductive BuildFails (v : Vocabulary) (o : Options) (tokens : List Token) : BuildError → Prop
  | root (hroom : o.maxRecursion < 1) :
      BuildFails v o tokens (.grammar (.buildsTooDeep o.maxRecursion 0))
  | token {ts rest : List Token} {t : Token} {m : Machine} {e : BuildError}
      (hroom : 1 ≤ o.maxRecursion) (htokens : tokens = ts ++ t :: rest)
      (hread : Machine.start.read v o 0 ts = .ok m) (hstep : m.step v o ts.length t = .error e) :
      BuildFails v o tokens e
  | finish {m : Machine} {e : BuildError} (hroom : 1 ≤ o.maxRecursion)
      (hread : Machine.start.read v o 0 tokens = .ok m)
      (hfinish : m.finish o tokens.length = .error e) : BuildFails v o tokens e

theorem Expr.build_eq_error_iff {tokens : List Token} :
    build v o tokens = .error e ↔ BuildFails v o tokens e := by
  constructor
  · intro h
    by_cases hroom : 1 ≤ o.maxRecursion
    · rw [build_eq_run hroom, Machine.run, Nat.zero_add] at h
      rcases bind_eq_error_iff.mp h with h | ⟨m, hread, hfinish⟩
      · obtain ⟨ts, t, rest, m, htokens, hread, hstep⟩ := Machine.read_eq_error_iff.mp h
        rw [Nat.zero_add] at hstep
        exact .token hroom htokens hread hstep
      · exact .finish hroom hread hfinish
    · rw [build, if_pos (Nat.lt_of_not_le hroom)] at h
      cases h
      exact .root (Nat.lt_of_not_le hroom)
  · intro h
    cases h with
    | root hroom => rw [build, if_pos hroom]
    | token hroom htokens hread hstep =>
      rw [build_eq_run hroom, Machine.run, bind_eq_error_iff, Machine.read_eq_error_iff]
      exact Or.inl ⟨_, _, _, _, htokens, hread, by rwa [Nat.zero_add]⟩
    | finish hroom hread hfinish =>
      rw [build_eq_run hroom, Machine.run, Nat.zero_add]
      exact bind_eq_error_iff.mpr (Or.inr ⟨_, hread, hfinish⟩)

/-- A build that fails breaks the grammar, or one of its tokens names nothing. -/
theorem grammatical_or_unbound_of_build {tokens : List Token}
    (h : Expr.build v o tokens = .error e) :
    e.Grammatical ∨ ∃ t ∈ tokens, t.Unbound v e := by
  cases Expr.build_eq_error_iff.mp h with
  | root => exact Or.inl ⟨_, rfl⟩
  | @token ts rest t m e _ htokens _ hstep =>
    apply (Machine.stepFails_of_step hstep).grammatical_or_unbound.imp_right
    intro hunbound
    exact ⟨t, by simp [htokens], hunbound⟩
  | finish _ _ hfinish => exact Or.inl (Machine.finishFails_of_finish hfinish).grammatical

end CertPolicy
