import Mathlib.Data.List.ModifyLast
import Mathlib.Logic.Function.Iterate
import CertPolicy.Proofs.Limits
import CertPolicy.Proofs.Machine.Nesting

/-!
# Groups

A closing parenthesis ends the innermost build only. If operands are open in a group when it is
closed, they stay open, and an operator behind the group takes what the innermost of them has
collected as its left side. In the tree of the group that is the last operand of an operation,
of which again the last operand may have been open, and so on: `build_joined_groups`.

If nothing stands behind the group, what is open in it ends with the policy, and each build with the
value it has without the parentheses: `build_group`.
-/

namespace CertPolicy
set_option autoImplicit false

def group (tokens : List Token) : List Token :=
  ⟨"(", .startLevel⟩ :: (tokens ++ [⟨")", .endLevel⟩])

theorem length_group (tokens : List Token) : (group tokens).length = tokens.length + 2 := by
  simp [group]

namespace Machine
variable {v : Vocabulary} {o o' : Options} {index : Nat} {m n : Machine}

theorem pending_ne_nil_of_unwind {tokens : List Token} {e : Expr}
    (hread : start.read v o 0 tokens = .ok m) (hdepth : m.depth = 0)
    (h : unwind o index m.top m.below = .ok (some e)) : m.top.pending ≠ [] := by
  rcases List.eq_nil_or_concat tokens with rfl | ⟨ts, t, rfl⟩
  · cases hread
    obtain ⟨_, hnone⟩ := reduce_eq_ok_iff.mp h
    cases hnone
  · rw [List.concat_eq_append] at hread
    obtain ⟨n, _, hstep⟩ := read_concat_eq_ok_iff.mp hread
    cases hstep with
    | startLevel => simp at hdepth
    | endLevel _ _ _ hpending hclose => exact ne_nil_of_close hclose hpending
    | operator =>
      obtain ⟨f', hclose, _⟩ := bind_eq_ok_iff.mp h
      obtain ⟨_, joined, hjoined, _⟩ := close_eq_ok_iff.mp hclose
      cases hjoined
    | literal | reference => simp [collect]

/-- Wherever it stands, a policy in parentheses is read, and what it leaves open ends with the
value of the policy. -/
theorem exists_read_group {tokens : List Token} {e : Expr} {k : Nat} (index : Nat)
    (hbalanced : o.requireBalanced = true) (hsiblings : o'.siblings = o.siblings)
    (hbuild : Expr.build v o tokens = .ok (some e))
    (hroom : HasRoom o' n k) (hk : (group tokens).length ≤ k) :
    ∃ f rest, n.read v o' index (group tokens) = .ok ⟨f, rest, n.depth⟩ ∧ f.pending ≠ [] ∧
      ∀ i, unwind o' i f rest =
        unwind o' i { n.top with pending := n.top.pending ++ [e] } n.below := by
  obtain ⟨_, m, hread, hfinish⟩ := Expr.build_eq_ok_iff.mp hbuild
  obtain ⟨hunwind, hdepth⟩ := finish_eq_ok_iff.mp hfinish
  have hm := hdepth hbalanced
  rw [length_group] at hk
  obtain ⟨hroomDepth, hroomBuilds⟩ := hroom
  have hopen : Step v o' index ⟨"(", .startLevel⟩ n ⟨⟨.level, []⟩, n.top :: n.below, n.depth + 1⟩ :=
    .startLevel rfl (by omega) (by omega)
  have hinside : Inside (n.top :: n.below) (n.depth + 1) start
      ⟨⟨.level, []⟩, n.top :: n.below, n.depth + 1⟩ :=
    ⟨rfl, ⟨[], rfl, rfl⟩, by simp [start]⟩
  have hroom : HasRoom o' ⟨⟨.level, []⟩, n.top :: n.below, n.depth + 1⟩ tokens.length := by
    rw [builds] at hroomBuilds
    constructor
    · dsimp only
      omega
    · simp only [builds, List.length_cons]
      omega
  obtain ⟨n₁, hread₁, htop, ⟨fs, hbelow, hfs⟩, hdepth₁⟩ :=
    hinside.exists_read (index + 1) hsiblings hroom hread
  have hbottom : (openers m.top m.below).getLast? = some .startLevel := by
    rw [openers_of_read hread, List.getLast?_concat]
  obtain ⟨f, rest, f', hrest, hclose, hunwind'⟩ :=
    exists_close_inside n.top n.below (index + 1 + tokens.length) hsiblings hunwind
      hbottom htop hfs
  have hpending : n₁.top.pending ≠ [] := by
    rw [(Frame.content_eq_iff.mp htop).2]
    exact pending_ne_nil_of_unwind hread hm hunwind
  have hend : Step v o' (index + 1 + tokens.length) ⟨")", .endLevel⟩ n₁ ⟨f', rest, n₁.depth - 1⟩ :=
    .endLevel rfl (hbelow.trans hrest) (by omega) hpending hclose
  refine ⟨f', rest, ?_, ne_nil_of_close hclose hpending, hunwind'⟩
  have hlevels : n₁.depth - 1 = n.depth := by omega
  rw [hlevels] at hend
  exact read_cons_eq_ok_iff.mpr ⟨_, hopen, read_concat_eq_ok_iff.mpr ⟨n₁, hread₁, hend⟩⟩

end Machine

/-- Parentheses around tokens open one level more, and one build for it. -/
theorem Options.Within.group {o : Options} {tokens : List Token} (h : o.Within 0 1 tokens) :
    Options.Within { o with maxDepth := o.maxDepth + 1, maxRecursion := o.maxRecursion + 1 } 0 1
      (group tokens) := by
  intro ts hts
  rw [CertPolicy.group] at hts
  rcases List.prefix_cons_iff.mp hts with rfl | ⟨us, rfl, hus⟩
  · simp
  · have hcounts : us <+: tokens ∨ us = tokens ++ [⟨")", .endLevel⟩] :=
      (List.prefix_concat_iff.mp hus).symm
    rw [Category.count_cons .startLevel, Category.count_cons .endLevel,
      Category.count_cons .operator]
    rcases hcounts with hus | rfl
    · have hself := h us hus
      simp
      omega
    · have hself := h tokens (List.prefix_refl _)
      simp
      omega

/-- A policy in parentheses is the policy itself, if one level and one build more are allowed for
them. -/
theorem build_group {v : Vocabulary} {o : Options} {tokens : List Token} {e : Expr}
    (hbalanced : o.requireBalanced = true) (h : Expr.build v o tokens = .ok (some e)) :
    Expr.build v { o with maxDepth := o.maxDepth + 1, maxRecursion := o.maxRecursion + 1 }
      (group tokens) = .ok (some e) := by
  set limit := (group tokens).length + 1 with hlimit
  -- With limits that the tokens cannot reach, nothing but the parentheses is new.
  have hwide : Expr.build v { o with maxDepth := limit, maxRecursion := limit } (group tokens) =
      .ok (some e) := by
    have hroom : Machine.HasRoom { o with maxDepth := limit, maxRecursion := limit }
        Machine.start (group tokens).length := by
      constructor
      · show 0 + _ ≤ limit
        omega
      · show 1 + _ ≤ limit
        omega
    obtain ⟨f, rest, hread, _, hunwind⟩ :=
      Machine.exists_read_group 0 hbalanced (by rfl) h hroom (Nat.le_refl _)
    apply Expr.build_eq_ok_iff.mpr
    refine ⟨Nat.le_add_left 1 _, _, hread, ?_⟩
    apply Machine.finish_eq_ok_iff.mpr
    refine ⟨?_, fun _ => rfl⟩
    rw [hunwind]
    exact reduce_eq_ok_iff.mpr ⟨fun _ => Nat.le_refl 1, rfl⟩
  rw [← hwide]
  apply build_congr
  · rfl
  · rfl
  · exact Options.within_length o (group tokens)
  · exact (within_of_build h).group

/-- Both limits are reached, and a sibling is dropped where the policy ends. -/
theorem build_group_siblings :
    Expr.build .standard ⟨.keepFirst, true, true, 0, 2⟩ [⟨"a", .literal⟩, ⟨"=", .operator⟩,
        ⟨"b", .literal⟩, ⟨"c", .literal⟩] =
      .ok (some (.operation .equals [.literal "a", .literal "b"])) ∧
    Expr.build .standard ⟨.keepFirst, true, true, 1, 3⟩ (group [⟨"a", .literal⟩,
        ⟨"=", .operator⟩, ⟨"b", .literal⟩, ⟨"c", .literal⟩]) =
      .ok (some (.operation .equals [.literal "a", .literal "b"])) := by
  have h : Expr.build .standard ⟨.keepFirst, true, true, 0, 2⟩ [⟨"a", .literal⟩,
      ⟨"=", .operator⟩, ⟨"b", .literal⟩, ⟨"c", .literal⟩] =
      .ok (some (.operation .equals [.literal "a", .literal "b"])) := by
    decide +kernel
  exact ⟨h, build_group rfl h⟩

end CertPolicy
