import Mathlib.Order.Bounds.Basic
import CertPolicy.Proofs.Machine.Counters
import CertPolicy.Proofs.Machine.Errors

/-!
# The limits on nesting and on open builds

How many levels and builds are open behind a token is a matter of counting tokens: a closing
parenthesis ends one build, be it a level or an operand, and an operator opens a build and no
level. A build whose counts keep to the limits is the same under all limits that they keep to. At
the first token where a count exceeds its limit it fails, if it has not failed before.
-/

namespace CertPolicy
set_option autoImplicit false

/-- The levels open behind these tokens; below zero if more were closed than opened. -/
def levelsOpen (tokens : List Token) : Int :=
  Category.startLevel.count tokens - Category.endLevel.count tokens

/-- The builds open behind these tokens: that of the policy, one for each open level, and one for
each operator. -/
def buildsOpen (tokens : List Token) : Int :=
  1 + levelsOpen tokens + Category.operator.count tokens

@[simp] theorem levelsOpen_nil : levelsOpen [] = 0 := rfl

@[simp] theorem buildsOpen_nil : buildsOpen [] = 1 := rfl

theorem levelsOpen_concat (ts : List Token) (t : Token) (ht : t.category = .startLevel) :
    levelsOpen (ts ++ [t]) = levelsOpen ts + 1 := by
  simp [levelsOpen, ht]
  omega

theorem buildsOpen_concat (ts : List Token) (t : Token)
    (ht : t.category = .startLevel ∨ t.category = .operator) :
    buildsOpen (ts ++ [t]) = buildsOpen ts + 1 := by
  rcases ht with ht | ht <;> simp [buildsOpen, levelsOpen, ht] <;> omega

theorem levelsOpen_nonpos {tokens : List Token} (h : ∀ t ∈ tokens, t.category ≠ .startLevel) :
    levelsOpen tokens ≤ 0 := by
  have hnone : Category.startLevel.count tokens = 0 := by
    simpa [Category.count, List.countP_eq_zero] using h
  unfold levelsOpen
  omega

theorem Category.count_add_count_le (tokens : List Token) :
    startLevel.count tokens + operator.count tokens ≤ tokens.length := by
  induction tokens with
  | nil => rfl
  | cons t rest ih =>
    rw [count_cons startLevel, count_cons operator, List.length_cons]
    cases ht : t.category <;> simp [ht] <;> omega

namespace Options
variable {o o' : Options} {tokens : List Token}

theorem within_iff : o.Within 0 1 tokens ↔
    ∀ k ≤ tokens.length, levelsOpen (tokens.take k) ≤ o.maxDepth ∧
      buildsOpen (tokens.take k) ≤ o.maxRecursion := by
  constructor
  · intro h k _
    have hk := h _ (List.take_prefix k tokens)
    unfold buildsOpen levelsOpen
    omega
  · intro h ts hts
    have hk := h ts.length hts.length_le
    rw [← List.prefix_iff_eq_take.mp hts] at hk
    unfold buildsOpen levelsOpen at hk
    omega

/-- No policy exceeds limits beyond the number of its tokens. -/
theorem within_length (o : Options) (tokens : List Token) :
    Within { o with maxDepth := tokens.length + 1, maxRecursion := tokens.length + 1 }
      0 1 tokens := by
  intro ts hts
  have hle := hts.length_le
  have hcount := Category.count_add_count_le ts
  dsimp only
  omega

end Options

namespace Machine
variable {v : Vocabulary} {o o' : Options} {index : Nat} {t : Token} {tokens : List Token}
variable {m m' : Machine}

theorem levelsOpen_of_read (h : start.read v o 0 tokens = .ok m) : levelsOpen tokens = m.depth := by
  have hdepth := depth_of_read h
  unfold levelsOpen
  omega

theorem buildsOpen_of_read (h : start.read v o 0 tokens = .ok m) :
    buildsOpen tokens = m.builds := by
  have hdepth := depth_of_read h
  have hlength := length_below_of_read h
  unfold buildsOpen levelsOpen builds
  omega

theorem Step.within_rest {rest : List Token} (hstep : Step v o' index t m m')
    (h : o.Within m.depth m.builds (t :: rest)) : o.Within m'.depth m'.builds rest := by
  intro ts hts
  have hcons := h (t :: ts) ((List.prefix_cons_inj t).mpr hts)
  have hdepth := hstep.depth_add
  have hlength := hstep.length_below_add
  rw [Category.count_cons .startLevel, Category.count_cons .endLevel,
    Category.count_cons .operator] at hcons
  unfold builds at hcons ⊢
  omega

/-- A token is read alike under all limits that it keeps to. -/
theorem step_congr (hsiblings : o'.siblings = o.siblings) (h : o.Within m.depth m.builds [t])
    (h' : o'.Within m.depth m.builds [t]) : m.step v o' index t = m.step v o index t := by
  have hself := h [t] (List.prefix_refl _)
  have hself' := h' [t] (List.prefix_refl _)
  cases ht : t.category with
  | startLevel =>
    simp [ht] at hself hself'
    have hstep : m.step v o index t = .ok _ :=
      step_eq_ok_iff.mpr (.startLevel ht (by omega) (by omega))
    have hstep' : m.step v o' index t = .ok _ :=
      step_eq_ok_iff.mpr (.startLevel ht (by omega) (by omega))
    rw [hstep, hstep']
  | endLevel => simp only [step, ht, close_congr hsiblings]
  | operator =>
    cases hb : v.operators.find? t.text with
    | none => simp only [step, ht, hb]
    | some b =>
      simp [ht] at hself hself'
      have hstep : m.step v o index t = .ok _ :=
        step_eq_ok_iff.mpr (.operator ht hb (by omega))
      have hstep' : m.step v o' index t = .ok _ :=
        step_eq_ok_iff.mpr (.operator ht hb (by omega))
      rw [hstep, hstep']
  | literal | reference => simp only [step, ht]

theorem read_congr (hsiblings : o'.siblings = o.siblings) (h : o.Within m.depth m.builds tokens)
    (h' : o'.Within m.depth m.builds tokens) :
    m.read v o' index tokens = m.read v o index tokens := by
  induction tokens generalizing m index with
  | nil => rfl
  | cons t rest ih =>
    have hfirst : [t] <+: t :: rest := ⟨rest, rfl⟩
    have hstep : m.step v o' index t = m.step v o index t :=
      step_congr hsiblings (fun ts hts => h ts (hts.trans hfirst))
        (fun ts hts => h' ts (hts.trans hfirst))
    rw [read, read, hstep]
    cases hn : m.step v o index t with
    | error e => rfl
    | ok n =>
      rw [step_eq_ok_iff] at hn
      exact ih (hn.within_rest h) (hn.within_rest h')

end Machine

section Build
variable {v : Vocabulary} {o o' : Options} {tokens ts rest : List Token} {t : Token}

/-- The limits are invisible to tokens that keep to them. -/
theorem build_congr (hsiblings : o'.siblings = o.siblings)
    (hrequired : o'.requireBalanced = o.requireBalanced) (h : o.Within 0 1 tokens)
    (h' : o'.Within 0 1 tokens) : Expr.build v o' tokens = Expr.build v o tokens := by
  have hroom : 1 ≤ o.maxRecursion := by simpa using (h [] List.nil_prefix).2
  have hroom' : 1 ≤ o'.maxRecursion := by simpa using (h' [] List.nil_prefix).2
  have hread : Machine.start.read v o' 0 tokens = Machine.start.read v o 0 tokens :=
    Machine.read_congr hsiblings h h'
  rw [Expr.build_eq_run hroom, Expr.build_eq_run hroom', Machine.run, Machine.run, hread]
  simp only [Machine.finish, Machine.unwind_congr hsiblings, hrequired]

theorem within_of_build {value : Option Expr} (h : Expr.build v o tokens = .ok value) :
    o.Within 0 1 tokens := by
  obtain ⟨hroom, m, hread, _⟩ := Expr.build_eq_ok_iff.mp h
  exact Machine.within_of_read hroom hread

/-- If a property of prefixes fails up to a token and holds behind it, then the place behind the
token is the first one where it holds. -/
theorem isLeast_succ_length {P : List Token → Prop} (hbefore : ∀ us, us <+: ts → ¬ P us)
    (hbehind : P (ts ++ [t])) :
    IsLeast {k | k ≤ (ts ++ t :: rest).length ∧ P ((ts ++ t :: rest).take k)} (ts.length + 1) := by
  constructor
  · refine ⟨by simp, ?_⟩
    rwa [List.append_cons, List.take_left' (by simp)]
  · rintro k ⟨_, hk⟩
    by_contra hlt
    have htake : (ts ++ t :: rest).take k = ts.take k := List.take_append_of_le_length (by omega)
    exact hbefore _ (List.take_prefix k ts) (htake ▸ hk)

/-- The place of a nesting error is that of the token that opens the first level too many. -/
theorem isLeast_of_nestingTooDeep {limit index : Nat}
    (h : Expr.build v o tokens = .error (.grammar (.nestingTooDeep limit index))) :
    limit = o.maxDepth ∧
      IsLeast {k | k ≤ tokens.length ∧ (o.maxDepth : Int) < levelsOpen (tokens.take k)}
        (index + 1) := by
  cases Expr.build_eq_error_iff.mp h with
  | @token ts rest t m _ hroom htokens hread hstep =>
    cases Machine.stepFails_of_step hstep with
    | depth ht hdepth =>
      have hwithin := Machine.within_of_read hroom hread
      have hlevels := Machine.levelsOpen_of_read hread
      refine ⟨rfl, htokens ▸ isLeast_succ_length
        (P := fun ts => (o.maxDepth : Int) < levelsOpen ts) ?_ ?_⟩
      · intro us hus
        have hle := (hwithin us hus).1
        unfold levelsOpen
        omega
      · rw [levelsOpen_concat ts t ht, hlevels]
        omega
    | close _ _ _ hclose => cases hclose
    | unbound hunbound => cases hunbound
  | finish _ _ hfinish =>
    cases Machine.finishFails_of_finish hfinish with
    | unwind hunwind => cases hunwind

/-- The place of an error for too many builds is that of the token that opens the first build too
many. The build of the policy itself is opened in front of all tokens. -/
theorem isLeast_of_buildsTooDeep {limit index : Nat}
    (h : Expr.build v o tokens = .error (.grammar (.buildsTooDeep limit index))) :
    limit = o.maxRecursion ∧ ∃ k, index = k - 1 ∧
      IsLeast {k | k ≤ tokens.length ∧ (o.maxRecursion : Int) < buildsOpen (tokens.take k)} k := by
  cases Expr.build_eq_error_iff.mp h with
  | root hroom =>
    refine ⟨rfl, 0, rfl, ⟨Nat.zero_le _, ?_⟩, fun _ _ => Nat.zero_le _⟩
    rw [List.take_zero, buildsOpen_nil]
    omega
  | @token ts rest t m _ hroom htokens hread hstep =>
    cases Machine.stepFails_of_step hstep with
    | builds ht hbuilds =>
      have hwithin := Machine.within_of_read hroom hread
      have hopen := Machine.buildsOpen_of_read hread
      refine ⟨rfl, ts.length + 1, rfl, htokens ▸ isLeast_succ_length
        (P := fun ts => (o.maxRecursion : Int) < buildsOpen ts) ?_ ?_⟩
      · intro us hus
        have hle := (hwithin us hus).2
        unfold buildsOpen levelsOpen
        omega
      · rw [buildsOpen_concat ts t ht, hopen]
        omega
    | close _ _ _ hclose => cases hclose
    | unbound hunbound => cases hunbound
  | finish _ _ hfinish =>
    cases Machine.finishFails_of_finish hfinish with
    | unwind hunwind => cases hunwind

end Build

/-- Tokens whose levels and builds keep to the limits are built as if there were none, and other
tokens are no policy. A limit that is exceeded is reported at the first token that exceeds it. While
a policy is read no more builds are open than are allowed, and operators are no nesting. -/
theorem build_limits (v : Vocabulary) (o : Options) (tokens : List Token) :
    ((∀ k ≤ tokens.length, levelsOpen (tokens.take k) ≤ o.maxDepth ∧
        buildsOpen (tokens.take k) ≤ o.maxRecursion) →
      Expr.build v o tokens = Expr.build v
        { o with maxDepth := tokens.length + 1, maxRecursion := tokens.length + 1 } tokens) ∧
    (∀ k ≤ tokens.length, o.maxDepth < levelsOpen (tokens.take k) ∨
        o.maxRecursion < buildsOpen (tokens.take k) →
      ∀ value, Expr.build v o tokens ≠ .ok value) ∧
    (∀ limit index, Expr.build v o tokens = .error (.grammar (.nestingTooDeep limit index)) →
      limit = o.maxDepth ∧ ∃ k, index = k - 1 ∧
        IsLeast {k | k ≤ tokens.length ∧ (o.maxDepth : Int) < levelsOpen (tokens.take k)} k) ∧
    (∀ limit index, Expr.build v o tokens = .error (.grammar (.buildsTooDeep limit index)) →
      limit = o.maxRecursion ∧ ∃ k, index = k - 1 ∧
        IsLeast {k | k ≤ tokens.length ∧ (o.maxRecursion : Int) < buildsOpen (tokens.take k)} k) ∧
    (1 ≤ o.maxRecursion → ∀ k m, Machine.start.read v o 0 (tokens.take k) = .ok m →
      m.depth = levelsOpen (tokens.take k) ∧ m.builds = buildsOpen (tokens.take k) ∧
        m.builds ≤ o.maxRecursion) ∧
    ((∀ t ∈ tokens, t.category ≠ .startLevel) → ∀ limit index,
      Expr.build v o tokens ≠ .error (.grammar (.nestingTooDeep limit index))) := by
  refine ⟨?_, ?_, ?_, ?_, ?_, ?_⟩
  · intro h
    have hwithin := Options.within_iff.mpr h
    symm
    apply build_congr (by rfl) (by rfl) hwithin (Options.within_length o tokens)
  · intro k hk hexceeds value h
    have hwithin := Options.within_iff.mp (within_of_build h) k hk
    omega
  · intro limit index h
    obtain ⟨hlimit, hleast⟩ := isLeast_of_nestingTooDeep h
    exact ⟨hlimit, index + 1, rfl, hleast⟩
  · intro limit index h
    exact isLeast_of_buildsTooDeep h
  · intro hroom k m hread
    refine ⟨(Machine.levelsOpen_of_read hread).symm, (Machine.buildsOpen_of_read hread).symm, ?_⟩
    exact (Machine.le_limits_of_read hread ⟨Nat.zero_le _, hroom⟩).2
  · intro hflat limit index h
    obtain ⟨_, ⟨_, hexceeds⟩, _⟩ := isLeast_of_nestingTooDeep h
    have hnonpos : levelsOpen (tokens.take (index + 1)) ≤ 0 :=
      levelsOpen_nonpos fun t ht => hflat t (List.mem_of_mem_take ht)
    omega

/-- The group is one level, and with the policy and the negation it makes three builds. -/
theorem build_limits_negated_group :
    Expr.build .standard { Options.strict with maxDepth := 1, maxRecursion := 3 }
        [⟨"!", .operator⟩, ⟨"(", .startLevel⟩, ⟨"a", .literal⟩, ⟨")", .endLevel⟩] =
      Expr.build .standard { Options.strict with maxDepth := 5, maxRecursion := 5 }
        [⟨"!", .operator⟩, ⟨"(", .startLevel⟩, ⟨"a", .literal⟩, ⟨")", .endLevel⟩] ∧
    (∀ value, Expr.build .standard { Options.strict with maxRecursion := 2 }
      [⟨"!", .operator⟩, ⟨"(", .startLevel⟩, ⟨"a", .literal⟩, ⟨")", .endLevel⟩] ≠ .ok value) ∧
    (∃ k, 1 = k - 1 ∧ IsLeast {k | k ≤ 4 ∧ 0 < levelsOpen (List.take k
      [⟨"!", .operator⟩, ⟨"(", .startLevel⟩, ⟨"a", .literal⟩, ⟨")", .endLevel⟩])} k) ∧
    ∃ k, 1 = k - 1 ∧ IsLeast {k | k ≤ 4 ∧ 2 < buildsOpen (List.take k
      [⟨"!", .operator⟩, ⟨"(", .startLevel⟩, ⟨"a", .literal⟩, ⟨")", .endLevel⟩])} k := by
  refine ⟨?_, ?_, ?_, ?_⟩
  · exact (build_limits .standard { Options.strict with maxDepth := 1, maxRecursion := 3 } _).1
      (by decide +kernel)
  · exact (build_limits .standard { Options.strict with maxRecursion := 2 } _).2.1 2
      (by decide +kernel) (by decide +kernel)
  · exact ((build_limits .standard { Options.strict with maxDepth := 0 }
      [⟨"!", .operator⟩, ⟨"(", .startLevel⟩, ⟨"a", .literal⟩, ⟨")", .endLevel⟩]).2.2.1 0 1
      (by decide +kernel)).2
  · exact ((build_limits .standard { Options.strict with maxRecursion := 2 }
      [⟨"!", .operator⟩, ⟨"(", .startLevel⟩, ⟨"a", .literal⟩, ⟨")", .endLevel⟩]).2.2.2.1 2 1
      (by decide +kernel)).2

end CertPolicy
