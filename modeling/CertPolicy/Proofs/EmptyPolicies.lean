import CertPolicy.Proofs.Machine.Nesting
import CertPolicy.Proofs.Machine.Simulation

/-!
# Policies that spell nothing

Levels that have only been opened supply nothing when the policy ends. Once anything has been
collected, no closing parenthesis, no operator and no dropping of siblings leaves a build empty, and
an operator demands an operand. So the tokens of an empty policy are opening parentheses, and these
may stay open.
-/

namespace CertPolicy
set_option autoImplicit false

/-- Tokens that open levels and do nothing else, no more of them than the limits allow, and that
need not be closed. -/
structure OnlyOpens (o : Options) (tokens : List Token) : Prop where
  levels : ∀ t ∈ tokens, t.category = .startLevel
  unclosed : tokens.length = 0 ∨ o.requireBalanced = false
  depth : tokens.length ≤ o.maxDepth
  builds : tokens.length + 1 ≤ o.maxRecursion

namespace Machine
variable {v : Vocabulary} {o : Options} {index : Nat} {t : Token} {tokens : List Token}
variable {m m' : Machine}

/-- Nothing has been collected in a stack, and no operator is open in it. -/
def Vacant (top : Frame) : List Frame → Prop
  | [] => top.pending = []
  | f :: below => top.pending = [] ∧ top.scope.binding? = none ∧ Vacant f below

theorem Vacant.pending_eq_nil {top : Frame} {below : List Frame} (h : Vacant top below) :
    top.pending = [] := by
  cases below with
  | nil => exact h
  | cons => exact h.1

theorem unwind_eq_none_iff {top : Frame} {below : List Frame} :
    unwind o index top below = .ok none ↔ Vacant top below := by
  induction below generalizing top with
  | nil =>
    rw [unwind, reduce_eq_ok_iff, Vacant, eq_comm (a := none), List.head?_eq_none_iff]
    constructor
    · exact And.right
    · intro hpending
      exact ⟨fun _ => by simp [hpending], hpending⟩
  | cons f below ih =>
    rw [unwind, bind_eq_ok_iff, Vacant]
    by_cases hpending : top.pending = []
    · simp only [close_nil_eq_ok_iff hpending, hpending, true_and, and_assoc, exists_and_left,
        exists_eq_left, ih]
    · constructor
      · rintro ⟨f', hclose, hrest⟩
        have hnil := (ih.mp hrest).pending_eq_nil
        exact absurd hnil (ne_nil_of_close hclose hpending)
      · exact fun h => absurd h.1 hpending

/-- A stack stays vacant only at a token that opens a level, and it does not become vacant. -/
theorem Step.vacant_iff (h : Step v o index t m m') :
    Vacant m'.top m'.below ↔ t.category = .startLevel ∧ Vacant m.top m.below := by
  cases h with
  | startLevel ht => simp [Vacant, Scope.binding?, ht]
  | operator ht => simp [Vacant, Scope.binding?, ht]
  | endLevel ht _ _ hpending hclose =>
    have hne := ne_nil_of_close hclose hpending
    constructor
    · exact fun h => absurd h.pending_eq_nil hne
    · simp [ht]
  | literal ht | reference ht =>
    constructor
    · intro h
      have hnil := h.pending_eq_nil
      simp [collect] at hnil
    · simp [ht]

theorem vacant_iff_of_read (h : m.read v o index tokens = .ok m') :
    Vacant m'.top m'.below ↔
      (∀ t ∈ tokens, t.category = .startLevel) ∧ Vacant m.top m.below := by
  induction tokens generalizing m index with
  | nil =>
    cases h
    simp
  | cons t rest ih =>
    obtain ⟨n, hstep, h⟩ := read_cons_eq_ok_iff.mp h
    rw [ih h, hstep.vacant_iff, List.forall_mem_cons, and_left_comm, and_assoc]

/-- Levels are opened as long as the limits leave room for them. -/
theorem exists_read_levels (index : Nat) (h : ∀ t ∈ tokens, t.category = .startLevel)
    (hroom : HasRoom o m tokens.length) : ∃ m', m.read v o index tokens = .ok m' := by
  induction tokens generalizing m index with
  | nil => exact ⟨m, rfl⟩
  | cons t rest ih =>
    rw [List.forall_mem_cons] at h
    rw [List.length_cons] at hroom
    obtain ⟨hdepth, hbuilds⟩ := hroom
    have hstep : Step v o index t m ⟨⟨.level, []⟩, m.top :: m.below, m.depth + 1⟩ := by
      apply Step.startLevel h.1
      · omega
      · omega
    obtain ⟨m', hread⟩ := ih (index + 1) h.2 (hstep.hasRoom ⟨hdepth, hbuilds⟩)
    exact ⟨m', read_cons_eq_ok_iff.mpr ⟨_, hstep, hread⟩⟩

end Machine

section Build
variable {v : Vocabulary} {o : Options} {tokens : List Token}

theorem onlyOpens_of_build (h : Expr.build v o tokens = .ok none) : OnlyOpens o tokens := by
  obtain ⟨hroot, m, hread, hfinish⟩ := Expr.build_eq_ok_iff.mp h
  obtain ⟨hunwind, hbalanced⟩ := Machine.finish_eq_ok_iff.mp hfinish
  have hvacant := Machine.unwind_eq_none_iff.mp hunwind
  have hlevels := ((Machine.vacant_iff_of_read hread).mp hvacant).1
  have hstart : Category.startLevel.count tokens = tokens.length :=
    List.countP_eq_length.mpr (by simpa using hlevels)
  have hend : Category.endLevel.count tokens = 0 := by
    apply List.countP_eq_zero.mpr
    intro t ht
    simp [hlevels t ht]
  have hdepth := Machine.depth_of_read hread
  have hwithin := Machine.within_of_read hroot hread tokens (List.prefix_refl _)
  constructor
  · exact hlevels
  · cases hrequired : o.requireBalanced with
    | false => exact Or.inr rfl
    | true =>
      have hclosed := hbalanced hrequired
      exact Or.inl (by omega)
  · omega
  · omega

theorem build_of_onlyOpens (h : OnlyOpens o tokens) : Expr.build v o tokens = .ok none := by
  have hroom : Machine.HasRoom o Machine.start tokens.length := by
    constructor
    · simpa [Machine.start] using h.depth
    · simpa [Machine.start, Machine.builds, Nat.add_comm] using h.builds
  obtain ⟨m, hread⟩ := Machine.exists_read_levels (v := v) 0 h.levels hroom
  apply Expr.build_eq_ok_iff.mpr
  refine ⟨Nat.le_trans (Nat.le_add_left 1 _) h.builds, m, hread, ?_⟩
  apply Machine.finish_eq_ok_iff.mpr
  constructor
  · apply Machine.unwind_eq_none_iff.mpr
    apply (Machine.vacant_iff_of_read hread).mpr
    exact ⟨h.levels, rfl⟩
  · intro hrequired
    have hdepth := Machine.depth_of_read hread
    have hle : Category.startLevel.count tokens ≤ tokens.length := List.countP_le_length
    rcases h.unclosed with hnil | hopen
    · omega
    · rw [hopen] at hrequired
      cases hrequired

end Build

/-- Tokens spell nothing exactly if they only open levels that may stay open. Whatever else can be
built is a policy. -/
theorem build_eq_none_iff (v : Vocabulary) (o : Options) (tokens : List Token) :
    (Expr.build v o tokens = .ok none ↔ OnlyOpens o tokens) ∧
      ((∃ e, Expr.build v o tokens = .ok (some e)) ↔
        (∃ value, Expr.build v o tokens = .ok value) ∧ ¬ OnlyOpens o tokens) := by
  have hnone : Expr.build v o tokens = .ok none ↔ OnlyOpens o tokens :=
    ⟨onlyOpens_of_build, build_of_onlyOpens⟩
  refine ⟨hnone, ?_⟩
  rw [← hnone]
  constructor
  · rintro ⟨e, he⟩
    refine ⟨⟨some e, he⟩, ?_⟩
    intro h
    rw [he] at h
    cases h
  · rintro ⟨⟨value, hvalue⟩, hne⟩
    cases value with
    | none => exact absurd hvalue hne
    | some e => exact ⟨e, hvalue⟩

end CertPolicy
