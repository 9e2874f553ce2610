import CertPolicy.Proofs.NodeCounts

/-!
# Tolerant reading

Tolerant options add policies and change none. Where siblings are tolerated, a build is the one
that rejects them, or it has dropped an expression; what is dropped is missing from the policy for
good, so counting the nodes tells which of the two it was. Where unclosed levels are tolerated,
they are all that the strict build objects to.
-/

namespace CertPolicy
set_option autoImplicit false

/-- The error says that some expressions are not joined. -/
def BuildError.Unjoined (e : BuildError) : Prop :=
  ∃ count index, e = .grammar (.unjoinedSiblings count index)

theorem SiblingRule.Keeps.length_le {rule : SiblingRule} {as bs : List Mark}
    (h : rule.Keeps as bs) : as.length ≤ bs.length :=
  h.sublist.length_le

theorem length_bareTokens_cons (t : Token) (ts : List Token) :
    (bareTokens (t :: ts)).length = (bareTokens [t]).length + (bareTokens ts).length := by
  rw [bareTokens, ← List.singleton_append, List.filter_append, List.length_append]
  rfl

/-- Where siblings are tolerated, a level loses marks unless it ends alike when they are
rejected. -/
theorem reduce_reject_or_lost {pending : List Expr} {index : Nat} {value : Option Expr}
    (h : SiblingRule.keepFirst.reduce pending index = .ok value) :
    SiblingRule.reject.reduce pending index = .ok value ∨
      (∃ e, SiblingRule.reject.reduce pending index = .error e ∧ e.Unjoined) ∧
        (Expr.spellings value.toList).length < (Expr.spellings pending).length := by
  obtain ⟨_, rfl⟩ := reduce_eq_ok_iff.mp h
  match pending with
  | [] => exact Or.inl rfl
  | [_] => exact Or.inl rfl
  | a :: b :: rest =>
    right
    constructor
    · exact ⟨_, if_pos ⟨rfl, by simp⟩, _, _, rfl⟩
    · have hpos := List.length_pos_iff.mpr (Expr.spelling_ne_nil b)
      simp only [List.head?_cons, Option.toList_some, Expr.spellings, List.flatMap_cons,
        List.flatMap_nil, List.length_append, List.length_nil]
      omega

namespace Machine
variable {v : Vocabulary} {o : Options} {index : Nat} {t : Token} {m m' : Machine}
variable {tokens : List Token} {f g f' top : Frame} {below : List Frame} {value : Option Expr}

/-! ## Siblings -/

theorem close_keepFirst_of_reject (h : close { o with siblings := .reject } index f g = .ok f') :
    close { o with siblings := .keepFirst } index f g = .ok f' := by
  obtain ⟨_, joined⟩ := close_eq_ok_iff.mp h
  exact close_eq_ok_iff.mpr ⟨nofun, joined⟩

theorem Step.keepFirst_of_reject (h : Step v { o with siblings := .reject } index t m m') :
    Step v { o with siblings := .keepFirst } index t m m' := by
  cases h with
  | startLevel ht hdepth hbuilds => exact .startLevel ht hdepth hbuilds
  | endLevel ht hbelow hdepth hpending hclose =>
    exact .endLevel ht hbelow hdepth hpending (close_keepFirst_of_reject hclose)
  | operator ht hb hbuilds => exact .operator ht hb hbuilds
  | literal ht => exact .literal ht
  | reference ht hf => exact .reference ht hf

theorem read_keepFirst_of_reject
    (h : m.read v { o with siblings := .reject } index tokens = .ok m') :
    m.read v { o with siblings := .keepFirst } index tokens = .ok m' := by
  induction tokens generalizing m index with
  | nil => exact h
  | cons t rest ih =>
    obtain ⟨n, hstep, h⟩ := read_cons_eq_ok_iff.mp h
    exact read_cons_eq_ok_iff.mpr ⟨n, hstep.keepFirst_of_reject, ih h⟩

theorem unwind_keepFirst_of_reject
    (h : unwind { o with siblings := .reject } index top below = .ok value) :
    unwind { o with siblings := .keepFirst } index top below = .ok value := by
  induction below generalizing top with
  | nil =>
    obtain ⟨_, hvalue⟩ := reduce_eq_ok_iff.mp h
    exact reduce_eq_ok_iff.mpr ⟨nofun, hvalue⟩
  | cons f below ih =>
    obtain ⟨f', hclose, h⟩ := bind_eq_ok_iff.mp h
    exact bind_eq_ok_iff.mpr ⟨f', close_keepFirst_of_reject hclose, ih h⟩

theorem close_reject_or_lost (below : List Frame)
    (h : close { o with siblings := .keepFirst } index f g = .ok f') :
    close { o with siblings := .reject } index f g = .ok f' ∨
      (∃ e, close { o with siblings := .reject } index f g = .error e ∧ e.Unjoined) ∧
        (marksOf f' below).length < (marksOf f (g :: below)).length := by
  obtain ⟨value, hvalue, hdeliver⟩ := bind_eq_ok_iff.mp h
  rcases reduce_reject_or_lost hvalue with hsame | ⟨⟨e, he, hunjoined⟩, hlt⟩
  · exact Or.inl (bind_eq_ok_iff.mpr ⟨value, hsame, hdeliver⟩)
  · refine Or.inr ⟨⟨e, bind_eq_error_iff.mpr (Or.inl he), hunjoined⟩, ?_⟩
    -- The frame ends as if it had collected nothing but its value.
    have hclose : close { o with siblings := .keepFirst } index
        ⟨f.scope, value.toList⟩ g = .ok f' := by
      refine bind_eq_ok_iff.mpr ⟨value, reduce_eq_ok_iff.mpr ⟨nofun, ?_⟩, hdeliver⟩
      cases value <;> rfl
    have hle := (keeps_of_close hclose below).length_le
    simp only [marksOf, List.length_append] at hle ⊢
    omega

theorem Step.reject_or_lost (h : Step v { o with siblings := .keepFirst } index t m m') :
    Step v { o with siblings := .reject } index t m m' ∨
      (∃ e, m.step v { o with siblings := .reject } index t = .error e ∧ e.Unjoined) ∧
        (marksOf m'.top m'.below).length < (marksOf m.top m.below).length := by
  cases h with
  | startLevel ht hdepth hbuilds => exact Or.inl (.startLevel ht hdepth hbuilds)
  | @endLevel f top below ht hbelow hdepth hpending hclose =>
    rcases close_reject_or_lost below hclose with hsame | ⟨⟨e, he, hunjoined⟩, hlt⟩
    · exact Or.inl (.endLevel ht hbelow hdepth hpending hsame)
    · refine Or.inr ⟨⟨e, ?_, hunjoined⟩, ?_⟩
      · simp [step, ht, hbelow, hdepth, hpending, he]
      · rw [hbelow]
        exact hlt
  | operator ht hb hbuilds => exact Or.inl (.operator ht hb hbuilds)
  | literal ht => exact Or.inl (.literal ht)
  | reference ht hf => exact Or.inl (.reference ht hf)

theorem Step.length_marksOf_le (h : Step v o index t m m') :
    (marksOf m'.top m'.below).length ≤
      (marksOf m.top m.below).length + (bareTokens [t]).length := by
  obtain ⟨ms, hms, hkeeps⟩ := h.keeps
  have hle := hkeeps.length_le
  rw [List.length_append, length_of_marks? hms] at hle
  exact hle

theorem length_marksOf_le_of_read (h : m.read v o index tokens = .ok m') :
    (marksOf m'.top m'.below).length ≤
      (marksOf m.top m.below).length + (bareTokens tokens).length := by
  obtain ⟨ms, hms, hkeeps⟩ := keeps_of_read h
  have hle := hkeeps.length_le
  rw [List.length_append, length_of_marks? hms] at hle
  exact hle

theorem read_reject_or_lost
    (h : m.read v { o with siblings := .keepFirst } index tokens = .ok m') :
    m.read v { o with siblings := .reject } index tokens = .ok m' ∨
      (∃ e, m.read v { o with siblings := .reject } index tokens = .error e ∧ e.Unjoined) ∧
        (marksOf m'.top m'.below).length <
          (marksOf m.top m.below).length + (bareTokens tokens).length := by
  induction tokens generalizing m index with
  | nil => exact Or.inl h
  | cons t rest ih =>
    obtain ⟨n, hstep, h⟩ := read_cons_eq_ok_iff.mp h
    rw [length_bareTokens_cons]
    rcases hstep.reject_or_lost with hsame | ⟨⟨e, he, hunjoined⟩, hlt⟩
    · have hle := hstep.length_marksOf_le
      rcases ih h with hrest | ⟨⟨e, he, hunjoined⟩, hlt⟩
      · exact Or.inl (read_cons_eq_ok_iff.mpr ⟨n, hsame, hrest⟩)
      · refine Or.inr ⟨⟨e, ?_, hunjoined⟩, by omega⟩
        exact bind_eq_error_iff.mpr (Or.inr ⟨n, step_eq_ok_iff.mpr hsame, he⟩)
    · have hle := length_marksOf_le_of_read h
      exact Or.inr ⟨⟨e, bind_eq_error_iff.mpr (Or.inl he), hunjoined⟩, by omega⟩

theorem unwind_reject_or_lost
    (h : unwind { o with siblings := .keepFirst } index top below = .ok value) :
    unwind { o with siblings := .reject } index top below = .ok value ∨
      (∃ e, unwind { o with siblings := .reject } index top below = .error e ∧ e.Unjoined) ∧
        (Expr.spellings value.toList).length < (marksOf top below).length := by
  induction below generalizing top with
  | nil => exact reduce_reject_or_lost h
  | cons f below ih =>
    obtain ⟨f', hclose, h⟩ := bind_eq_ok_iff.mp h
    rcases close_reject_or_lost below hclose with hsame | ⟨⟨e, he, hunjoined⟩, hlt⟩
    · have hle := (keeps_of_close hclose below).length_le
      rcases ih h with hrest | ⟨⟨e, he, hunjoined⟩, hlt⟩
      · exact Or.inl (bind_eq_ok_iff.mpr ⟨f', hsame, hrest⟩)
      · refine Or.inr ⟨⟨e, ?_, hunjoined⟩, by omega⟩
        exact bind_eq_error_iff.mpr (Or.inr ⟨f', hsame, he⟩)
    · have hle := (keeps_of_unwind h).length_le
      exact Or.inr ⟨⟨e, bind_eq_error_iff.mpr (Or.inl he), hunjoined⟩, by omega⟩

/-! ## Unclosed levels -/

theorem read_requireBalanced (required : Bool) :
    m.read v { o with requireBalanced := required } index tokens = m.read v o index tokens := by
  induction tokens generalizing m index with
  | nil => rfl
  | cons t rest ih =>
    simp only [read, ih]
    rfl

theorem unwind_requireBalanced (required : Bool) :
    unwind { o with requireBalanced := required } index top below = unwind o index top below := by
  apply unwind_congr
  rfl

end Machine

section Build
variable {v : Vocabulary} {o : Options} {tokens : List Token} {value : Option Expr}

theorem build_keepFirst_of_reject
    (h : Expr.build v { o with siblings := .reject } tokens = .ok value) :
    Expr.build v { o with siblings := .keepFirst } tokens = .ok value := by
  obtain ⟨hroot, m, hread, hfinish⟩ := Expr.build_eq_ok_iff.mp h
  obtain ⟨hunwind, hbalanced⟩ := Machine.finish_eq_ok_iff.mp hfinish
  refine Expr.build_eq_ok_iff.mpr ⟨hroot, m, Machine.read_keepFirst_of_reject hread, ?_⟩
  exact Machine.finish_eq_ok_iff.mpr ⟨Machine.unwind_keepFirst_of_reject hunwind, hbalanced⟩

/-- A build that tolerates siblings has fewer nodes than there are tokens for them, unless it is
the build that rejects siblings. -/
theorem build_reject_or_lost
    (h : Expr.build v { o with siblings := .keepFirst } tokens = .ok value) :
    Expr.build v { o with siblings := .reject } tokens = .ok value ∨
      (∃ e, Expr.build v { o with siblings := .reject } tokens = .error e ∧ e.Unjoined) ∧
        (value.toList.flatMap Expr.nodes).length < (bareTokens tokens).length := by
  obtain ⟨hroot, m, hread, hfinish⟩ := Expr.build_eq_ok_iff.mp h
  obtain ⟨hunwind, hbalanced⟩ := Machine.finish_eq_ok_iff.mp hfinish
  have hread_le := Machine.length_marksOf_le_of_read hread
  have hunwind_le := (Machine.keeps_of_unwind hunwind).length_le
  have hstart : (Machine.marksOf Machine.start.top Machine.start.below).length = 0 := rfl
  rw [← Expr.length_spellings, Expr.build_eq_run (o := { o with siblings := .reject }) hroot,
    Machine.run, Nat.zero_add]
  rcases Machine.read_reject_or_lost hread with hsame | ⟨⟨e, he, hunjoined⟩, hlt⟩
  · rcases Machine.unwind_reject_or_lost hunwind with hend | ⟨⟨e, he, hunjoined⟩, hlt⟩
    · left
      exact bind_eq_ok_iff.mpr ⟨m, hsame, Machine.finish_eq_ok_iff.mpr ⟨hend, hbalanced⟩⟩
    · refine Or.inr ⟨⟨e, ?_, hunjoined⟩, by omega⟩
      exact bind_eq_error_iff.mpr (Or.inr ⟨m, hsame, bind_eq_error_iff.mpr (Or.inl he)⟩)
  · exact Or.inr ⟨⟨e, bind_eq_error_iff.mpr (Or.inl he), hunjoined⟩, by omega⟩

theorem build_unbalanced_eq_ok_iff :
    Expr.build v { o with requireBalanced := false } tokens = .ok value ↔
      1 ≤ o.maxRecursion ∧ ∃ m, Machine.start.read v o 0 tokens = .ok m ∧
        Machine.unwind o tokens.length m.top m.below = .ok value := by
  simp [Expr.build_eq_ok_iff, Machine.finish_eq_ok_iff, Machine.read_requireBalanced,
    Machine.unwind_requireBalanced]

/-- If unclosed levels are not tolerated, they are an error, and nothing else changes. -/
theorem build_balanced_of_unbalanced
    (h : Expr.build v { o with requireBalanced := false } tokens = .ok value) :
    ∃ unclosed, Category.startLevel.count tokens = Category.endLevel.count tokens + unclosed ∧
      Expr.build v { o with requireBalanced := true } tokens =
        if unclosed = 0 then .ok value else .error (.grammar (.unclosedLevels unclosed)) := by
  obtain ⟨hroot, m, hread, hunwind⟩ := build_unbalanced_eq_ok_iff.mp h
  have hcount := Machine.depth_of_read hread
  refine ⟨m.depth, by omega, ?_⟩
  rw [Expr.build_eq_run (o := { o with requireBalanced := true }) hroot, Machine.run,
    Machine.read_requireBalanced, hread, ok_bind, Nat.zero_add, Machine.finish,
    Machine.unwind_requireBalanced, hunwind, ok_bind]
  by_cases hdepth : m.depth = 0 <;> simp [hdepth, Nat.pos_iff_ne_zero]

theorem build_unbalanced_of_balanced
    (h : Expr.build v { o with requireBalanced := true } tokens = .ok value) :
    Expr.build v { o with requireBalanced := false } tokens = .ok value := by
  obtain ⟨hroot, m, hread, hfinish⟩ := Expr.build_eq_ok_iff.mp h
  obtain ⟨hunwind, _⟩ := Machine.finish_eq_ok_iff.mp hfinish
  rw [Machine.read_requireBalanced] at hread
  rw [Machine.unwind_requireBalanced] at hunwind
  exact build_unbalanced_eq_ok_iff.mpr ⟨hroot, m, hread, hunwind⟩

end Build

/-- Options that tolerate more read all that the strict ones read, and to the same policy. What
they read besides is, strictly, an error: siblings that are not joined if nodes are missing, and
otherwise the unclosed levels. -/
theorem build_tolerant (v : Vocabulary) (o : Options) (tokens : List Token) :
    (∀ value, Expr.build v { o with siblings := .reject } tokens = .ok value →
      Expr.build v { o with siblings := .keepFirst } tokens = .ok value) ∧
    (∀ value, Expr.build v { o with siblings := .keepFirst } tokens = .ok value →
      ((value.toList.flatMap Expr.nodes).length = (bareTokens tokens).length →
        Expr.build v { o with siblings := .reject } tokens = .ok value) ∧
      ((value.toList.flatMap Expr.nodes).length ≠ (bareTokens tokens).length →
        ∃ count index, Expr.build v { o with siblings := .reject } tokens =
          .error (.grammar (.unjoinedSiblings count index)))) ∧
    (∀ value, Expr.build v { o with requireBalanced := false } tokens = .ok value →
      ∃ unclosed, Category.startLevel.count tokens = Category.endLevel.count tokens + unclosed ∧
        Expr.build v { o with requireBalanced := true } tokens =
          if unclosed = 0 then .ok value else .error (.grammar (.unclosedLevels unclosed))) ∧
    ∀ value, Expr.build v { o with requireBalanced := true } tokens = .ok value →
      Expr.build v { o with requireBalanced := false } tokens = .ok value := by
  refine ⟨fun _ h => build_keepFirst_of_reject h, ?_, fun _ h => build_balanced_of_unbalanced h,
    fun _ h => build_unbalanced_of_balanced h⟩
  intro value h
  rcases build_reject_or_lost h with hsame | ⟨⟨e, he, count, index, rfl⟩, hlt⟩
  · exact ⟨fun _ => hsame, fun hne => absurd (length_nodes_of_build rfl hsame) hne⟩
  · exact ⟨fun heq => absurd heq (Nat.ne_of_lt hlt), fun _ => ⟨count, index, he⟩⟩

/-- Two siblings in a level that is never closed, and a level that no option objects to. -/
theorem build_tolerant_siblings :
    (Expr.build .standard { Options.compatible with siblings := .keepFirst }
        [⟨"(", .startLevel⟩, ⟨"a", .literal⟩, ⟨"b", .literal⟩] = .ok (some (.literal "a")) ∧
      ∃ count index, Expr.build .standard { Options.compatible with siblings := .reject }
        [⟨"(", .startLevel⟩, ⟨"a", .literal⟩, ⟨"b", .literal⟩] =
          .error (.grammar (.unjoinedSiblings count index))) ∧
    (∃ unclosed, Category.startLevel.count
        [⟨"(", .startLevel⟩, ⟨"a", .literal⟩, ⟨"b", .literal⟩] = Category.endLevel.count
          [⟨"(", .startLevel⟩, ⟨"a", .literal⟩, ⟨"b", .literal⟩] + unclosed ∧
      Expr.build .standard { Options.compatible with requireBalanced := true }
        [⟨"(", .startLevel⟩, ⟨"a", .literal⟩, ⟨"b", .literal⟩] =
          if unclosed = 0 then .ok (some (.literal "a"))
          else .error (.grammar (.unclosedLevels unclosed))) ∧
    Expr.build .standard { Options.strict with siblings := .keepFirst }
      [⟨"(", .startLevel⟩, ⟨"a", .literal⟩, ⟨")", .endLevel⟩] = .ok (some (.literal "a")) ∧
    Expr.build .standard { Options.strict with requireBalanced := false }
      [⟨"(", .startLevel⟩, ⟨"a", .literal⟩, ⟨")", .endLevel⟩] = .ok (some (.literal "a")) := by
  have hdropped : Expr.build .standard { Options.compatible with siblings := .keepFirst }
      [⟨"(", .startLevel⟩, ⟨"a", .literal⟩, ⟨"b", .literal⟩] = .ok (some (.literal "a")) := by
    decide +kernel
  refine ⟨⟨hdropped, ?_⟩, ?_, ?_, ?_⟩
  · exact ((build_tolerant .standard .compatible _).2.1 _ hdropped).2 (by decide +kernel)
  · exact (build_tolerant .standard .compatible _).2.2.1 _ hdropped
  · exact (build_tolerant .standard .strict _).1 _ (by decide +kernel)
  · exact (build_tolerant .standard .strict _).2.2.2 _ (by decide +kernel)

end CertPolicy
