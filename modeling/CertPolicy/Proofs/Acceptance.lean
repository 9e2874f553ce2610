import CertPolicy.Proofs.Machine.Counters
import CertPolicy.Proofs.Machine.Simulation

/-!
# Which token sequences are policies

When siblings are tolerated, acceptance is a matter of neighbouring tokens and of counting:
`build_ok_iff_accepted`. A token that may follow the tokens before it leads from one stack to
the next, with one exception. An operator whose left side is missing is not noticed before its
operand has been read, so the stacks that can still succeed are those in which no such operator
is open (`Supplied`); and an operator may be left without an operand at the end (`Hanging`).
-/

namespace CertPolicy
set_option autoImplicit false

/-- The tokens of a policy, when siblings are tolerated. -/
structure Accepted (v : Vocabulary) (o : Options) (tokens : List Token) : Prop where
  closed : ∀ ts, ts <+: tokens → Category.endLevel.count ts ≤ Category.startLevel.count ts
  balanced : o.requireBalanced = true →
    Category.startLevel.count tokens = Category.endLevel.count tokens
  level_nonempty : ∀ a b, [a, b] <:+: tokens → a.category = .startLevel → b.category ≠ .endLevel
  operand_nonempty : ∀ a b, [a, b] <:+: tokens → a.category = .operator → b.category ≠ .endLevel
  /-- Something stands in front of a binary operator, in its own build. -/
  left : ∀ ts t b, ts ++ [t] <+: tokens → t.category = .operator →
    v.operators.find? t.text = some b → b.arity = .binary →
    ∃ a, ts.getLast? = some a ∧ a.category ≠ .startLevel ∧ a.category ≠ .operator
  /-- Something other than opened levels stands behind an operator. -/
  right : ∀ t ts, t :: ts <:+ tokens → t.category = .operator → ∃ a ∈ ts, a.category ≠ .startLevel
  bound : ∀ t ∈ tokens, t.category = .operator → ∃ b, v.operators.find? t.text = some b
  resolved : ∀ t ∈ tokens, t.category = .reference →
    ∃ f, v.fields.resolveRequired t.text = .ok f
  within : o.Within 0 1 tokens

/-- A token that may stand behind the given tokens. -/
def Fits (v : Vocabulary) (o : Options) (ts : List Token) (t : Token) : Prop :=
  match t.category with
  | .startLevel =>
    Category.startLevel.count ts + 1 ≤ o.maxDepth + Category.endLevel.count ts ∧
    Category.startLevel.count ts + Category.operator.count ts + 2 ≤
      o.maxRecursion + Category.endLevel.count ts
  | .endLevel => Category.endLevel.count ts < Category.startLevel.count ts ∧ ¬ OpensBuild ts
  | .operator => ∃ b, v.operators.find? t.text = some b ∧
    Category.startLevel.count ts + Category.operator.count ts + 2 ≤
      o.maxRecursion + Category.endLevel.count ts ∧ (b.arity = .binary → ¬ OpensBuild ts)
  | .literal => True
  | .reference => ∃ f, v.fields.resolveRequired t.text = .ok f

/-- The tokens end in an operator and levels that have only been opened. -/
def AwaitsOperand (tokens : List Token) : Prop :=
  ∃ t ts, t :: ts <:+ tokens ∧ t.category = .operator ∧ ∀ a ∈ ts, a.category = .startLevel

theorem not_awaitsOperand_nil : ¬ AwaitsOperand [] := by
  rintro ⟨t, ts, h, _⟩
  cases List.suffix_nil.mp h

theorem awaitsOperand_concat {ts : List Token} {t : Token} :
    AwaitsOperand (ts ++ [t]) ↔
      t.category = .operator ∨ (t.category = .startLevel ∧ AwaitsOperand ts) := by
  constructor
  · rintro ⟨a, as, h, ha, has⟩
    rcases List.suffix_concat_iff.mp h with h | ⟨rest, h, hrest⟩
    · cases h
    · cases rest with
      | nil =>
        cases h
        exact Or.inl ha
      | cons b bs =>
        cases h
        exact Or.inr ⟨has t (by simp), _, bs, hrest, ha, fun c hc => has c (by simp [hc])⟩
  · rintro (ht | ⟨ht, a, as, h, ha, has⟩)
    · exact ⟨t, [], List.suffix_append ts [t], ht, by simp⟩
    · refine ⟨a, as ++ [t], ?_, ha, ?_⟩
      · exact List.suffix_concat_iff.mpr (Or.inr ⟨a :: as, rfl, h⟩)
      · intro c hc
        rcases List.mem_append.mp hc with hc | hc
        · exact has c hc
        · exact List.mem_singleton.mp hc ▸ ht

namespace Machine
variable {v : Vocabulary} {o : Options} {index : Nat} {t : Token} {m m' : Machine}

/-- Every open operator has the expressions in front of it that it needs. -/
def Supplied (scope : Scope) : List Frame → Prop
  | [] => True
  | f :: below =>
    (∀ b, scope.binding? = some b → b.minOperands ≤ f.pending.length + 1) ∧
      Supplied f.scope below

/-- An operator is open, and nothing has been collected for it and above it. -/
def Hanging (top : Frame) : List Frame → Prop
  | [] => False
  | f :: below => top.pending = [] ∧ (top.scope.binding?.isSome ∨ Hanging f below)

theorem not_hanging_of_ne_nil {top : Frame} (h : top.pending ≠ []) (below : List Frame) :
    ¬ Hanging top below := by
  cases below with
  | nil => exact id
  | cons f below => exact fun hh => h hh.1

theorem left_of_close {f g f' : Frame} {b : Binding} (h : close o index f g = .ok f')
    (hb : f.scope.binding? = some b) : b.minOperands ≤ g.pending.length + 1 := by
  obtain ⟨_, joined, hjoined, _⟩ := close_eq_ok_iff.mp h
  simp only [deliver_eq_ok_iff, hb] at hjoined
  obtain ⟨_, _, hle, _⟩ := hjoined
  exact hle

theorem exists_close {f g : Frame} (index : Nat) (hkeep : o.siblings = .keepFirst)
    (hf : f.pending ≠ [])
    (hleft : ∀ b, f.scope.binding? = some b → b.minOperands ≤ g.pending.length + 1) :
    ∃ f', close o index f g = .ok f' := by
  obtain ⟨e, es, he⟩ := List.exists_cons_of_ne_nil hf
  simp only [close_eq_ok_iff, hkeep, reduceCtorEq, false_implies, true_and]
  cases hscope : f.scope.binding? with
  | none => exact ⟨_, _, deliver_eq_ok_iff.mpr (by rw [hscope]), rfl⟩
  | some b =>
    refine ⟨_, [b.combine (g.pending ++ [e])], deliver_eq_ok_iff.mpr ?_, rfl⟩
    simp only [hscope, he, List.head?_cons]
    exact ⟨e, rfl, hleft b hscope, rfl⟩

theorem Step.supplied (h : Step v o index t m m') (hs : Supplied m'.top.scope m'.below) :
    Supplied m.top.scope m.below := by
  cases h with
  | startLevel => exact hs.2
  | endLevel _ hbelow _ _ hclose =>
    rw [hbelow]
    rw [scope_of_close hclose] at hs
    exact ⟨fun b hb => left_of_close hclose hb, hs⟩
  | operator => exact hs.2
  | literal | reference => exact hs

/-- Between stacks that can still succeed, a token is read exactly when it fits the tokens
before it. -/
theorem exists_step_iff {ts : List Token} (index : Nat) (hkeep : o.siblings = .keepFirst)
    (hread : start.read v o 0 ts = .ok m) (hs : Supplied m.top.scope m.below) :
    (∃ m', Step v o index t m m' ∧ Supplied m'.top.scope m'.below) ↔ Fits v o ts t := by
  have hdepth := depth_of_read hread
  have hlength := length_below_of_read hread
  have hpending := pending_eq_nil_iff hread
  constructor
  · rintro ⟨m', hstep, hs'⟩
    cases hstep with
    | startLevel ht hd hb =>
      simp only [Fits, ht]
      rw [builds] at hb
      omega
    | endLevel ht _ hd hp _ =>
      simp only [Fits, ht]
      exact ⟨by omega, fun h => hp (hpending.mpr h)⟩
    | @operator b ht hfind hb =>
      simp only [Fits, ht]
      rw [builds] at hb
      have hleft := Binding.minOperands_le_iff.mp (hs'.1 b rfl)
      exact ⟨b, hfind, by omega, fun hbin h => hleft hbin (hpending.mpr h)⟩
    | literal ht => simp only [Fits, ht]
    | @reference f ht hf =>
      simp only [Fits, ht]
      exact ⟨f, hf⟩
  · intro hfits
    cases ht : t.category with
    | startLevel =>
      simp only [Fits, ht] at hfits
      refine ⟨_, .startLevel ht (by omega) (by rw [builds]; omega), ?_⟩
      refine ⟨?_, hs⟩
      intro b hb
      cases hb
    | endLevel =>
      simp only [Fits, ht] at hfits
      obtain ⟨hlt, hopens⟩ := hfits
      obtain ⟨f, below, hbelow⟩ := List.exists_cons_of_length_pos (l := m.below) (by omega)
      rw [hbelow] at hs
      have hp : m.top.pending ≠ [] := fun h => hopens (hpending.mp h)
      obtain ⟨f', hclose⟩ := exists_close index hkeep hp hs.1
      refine ⟨_, .endLevel ht hbelow (by omega) hp hclose, ?_⟩
      rw [scope_of_close hclose]
      exact hs.2
    | operator =>
      simp only [Fits, ht] at hfits
      obtain ⟨b, hb, hlimit, hbin⟩ := hfits
      refine ⟨_, .operator ht hb (by rw [builds]; omega), ?_, hs⟩
      intro b' hb'
      cases hb'
      exact Binding.minOperands_le_iff.mpr fun h hnil => hbin h (hpending.mp hnil)
    | literal => exact ⟨_, .literal ht, hs⟩
    | reference =>
      simp only [Fits, ht] at hfits
      obtain ⟨f, hf⟩ := hfits
      exact ⟨_, .reference ht hf, hs⟩

theorem exists_read_iff {tokens : List Token} (hkeep : o.siblings = .keepFirst) :
    (∃ m, start.read v o 0 tokens = .ok m ∧ Supplied m.top.scope m.below) ↔
      ∀ ts t, ts ++ [t] <+: tokens → Fits v o ts t := by
  induction tokens using List.reverseRecOn with
  | nil =>
    constructor
    · intro _ ts t h
      simp at h
    · intro _
      exact ⟨start, rfl, trivial⟩
  | append_singleton tokens a ih =>
    constructor
    · rintro ⟨m', hread', hs'⟩ ts t h
      obtain ⟨m, hread, hstep⟩ := read_concat_eq_ok_iff.mp hread'
      have hs := hstep.supplied hs'
      rcases List.prefix_concat_iff.mp h with h | h
      · obtain ⟨rfl, ha⟩ := List.append_inj' h rfl
        obtain rfl := List.singleton_inj.mp ha
        exact (exists_step_iff _ hkeep hread hs).mp ⟨m', hstep, hs'⟩
      · exact ih.mp ⟨m, hread, hs⟩ ts t h
    · intro h
      obtain ⟨m, hread, hs⟩ :=
        ih.mpr fun ts t hts => h ts t (hts.trans (List.prefix_append tokens [a]))
      obtain ⟨m', hstep, hs'⟩ :=
        (exists_step_iff (0 + tokens.length) hkeep hread hs).mpr
          (h tokens a (List.prefix_refl _))
      exact ⟨m', read_concat_eq_ok_iff.mpr ⟨m, hread, hstep⟩, hs'⟩

theorem exists_unwind_iff {top : Frame} {below : List Frame} (index : Nat)
    (hkeep : o.siblings = .keepFirst) :
    (∃ value, unwind o index top below = .ok value) ↔
      Supplied top.scope below ∧ ¬ Hanging top below := by
  induction below generalizing top with
  | nil => simp [unwind, reduce_eq_ok_iff, hkeep, Supplied, Hanging]
  | cons f below ih =>
    constructor
    · rintro ⟨value, h⟩
      obtain ⟨f', hclose, h⟩ := bind_eq_ok_iff.mp h
      obtain ⟨hs, hhang⟩ := ih.mp ⟨value, h⟩
      have hleft (b : Binding) := left_of_close (b := b) hclose
      refine ⟨⟨hleft, scope_of_close hclose ▸ hs⟩, ?_⟩
      rintro ⟨hnil, hh⟩
      obtain ⟨hnone, rfl⟩ := (close_nil_eq_ok_iff hnil).mp hclose
      rcases hh with hsome | hh
      · simp [hnone] at hsome
      · exact hhang hh
    · rintro ⟨⟨hleft, hs⟩, hhang⟩
      by_cases hnil : top.pending = []
      · rw [Hanging, not_and, not_or] at hhang
        obtain ⟨hnone, hh⟩ := hhang hnil
        obtain ⟨value, h⟩ := ih.mpr ⟨hs, hh⟩
        refine ⟨value, bind_eq_ok_iff.mpr ⟨f, (close_nil_eq_ok_iff hnil).mpr ⟨?_, rfl⟩, h⟩⟩
        simpa using hnone
      · obtain ⟨f', hclose⟩ := exists_close index hkeep hnil hleft
        have hs' : Supplied f'.scope below := scope_of_close hclose ▸ hs
        have hh := not_hanging_of_ne_nil (ne_nil_of_close hclose hnil) below
        obtain ⟨value, h⟩ := ih.mpr ⟨hs', hh⟩
        exact ⟨value, bind_eq_ok_iff.mpr ⟨f', hclose, h⟩⟩

theorem hanging_iff {tokens : List Token} (h : start.read v o 0 tokens = .ok m) :
    Hanging m.top m.below ↔ AwaitsOperand tokens := by
  induction tokens using List.reverseRecOn generalizing m with
  | nil =>
    cases h
    exact iff_of_false id not_awaitsOperand_nil
  | append_singleton ts t ih =>
    obtain ⟨n, hread, hstep⟩ := read_concat_eq_ok_iff.mp h
    rw [awaitsOperand_concat]
    cases hstep with
    | startLevel ht => simp [Hanging, Scope.binding?, ht, ih hread]
    | endLevel ht _ _ hpending hclose =>
      simpa [ht] using not_hanging_of_ne_nil (ne_nil_of_close hclose hpending) _
    | operator ht => simp [Hanging, Scope.binding?, ht]
    | literal ht | reference ht =>
      simpa [ht, collect] using not_hanging_of_ne_nil (by simp) n.below

end Machine

theorem fits_of_accepted {v : Vocabulary} {o : Options} {tokens ts : List Token} {t : Token}
    (h : Accepted v o tokens) (hts : ts ++ [t] <+: tokens) : Fits v o ts t := by
  have hclosed := h.closed _ hts
  have hwithin := h.within _ hts
  have hmem : t ∈ tokens := hts.subset (by simp)
  -- What opens a build is followed by no closing parenthesis.
  have hopens (ht : t.category = .endLevel) : ts = [] ∨ ¬ OpensBuild ts := by
    rcases List.eq_nil_or_concat ts with rfl | ⟨as, a, rfl⟩
    · exact Or.inl rfl
    · right
      rw [List.concat_eq_append, opensBuild_concat]
      have hin : [a, t] <:+: tokens := by
        refine List.IsInfix.trans ?_ hts.isInfix
        exact ⟨as, [], by simp⟩
      rintro (ha | ha)
      · exact h.level_nonempty a t hin ha ht
      · exact h.operand_nonempty a t hin ha ht
  cases ht : t.category with
  | startLevel =>
    simp only [Fits, ht]
    simp [ht] at hwithin
    omega
  | endLevel =>
    simp only [Fits, ht]
    simp [ht] at hclosed
    refine ⟨by omega, ?_⟩
    rcases hopens ht with rfl | hopens
    · simp at hclosed
    · exact hopens
  | operator =>
    simp only [Fits, ht]
    obtain ⟨b, hb⟩ := h.bound t hmem ht
    simp [ht] at hwithin
    refine ⟨b, hb, by omega, ?_⟩
    intro hbin hnone
    obtain ⟨a, ha, hstart, hop⟩ := h.left ts t b hts ht hb hbin
    rcases hnone a ha with ha | ha
    · exact hstart ha
    · exact hop ha
  | literal => simp only [Fits, ht]
  | reference =>
    simp only [Fits, ht]
    exact h.resolved t hmem ht

theorem counts_of_fits {v : Vocabulary} {o : Options} {tokens : List Token}
    (hroot : 1 ≤ o.maxRecursion) (h : ∀ ts t, ts ++ [t] <+: tokens → Fits v o ts t)
    (ts : List Token) (hts : ts <+: tokens) :
    Category.endLevel.count ts ≤ Category.startLevel.count ts ∧
    Category.startLevel.count ts ≤ o.maxDepth + Category.endLevel.count ts ∧
    1 + Category.startLevel.count ts + Category.operator.count ts ≤
      o.maxRecursion + Category.endLevel.count ts := by
  induction ts using List.reverseRecOn with
  | nil => simpa using hroot
  | append_singleton ts t ih =>
    have hprev := ih ((List.prefix_append ts [t]).trans hts)
    have hfits := h ts t hts
    unfold Fits at hfits
    cases ht : t.category with
    | startLevel | endLevel | literal | reference =>
      simp [ht] at hfits ⊢
      omega
    | operator =>
      simp only [ht] at hfits
      obtain ⟨_, _, hlimit, _⟩ := hfits
      simp [ht]
      omega

theorem accepted_of_fits {v : Vocabulary} {o : Options} {tokens : List Token}
    (hroot : 1 ≤ o.maxRecursion) (h : ∀ ts t, ts ++ [t] <+: tokens → Fits v o ts t)
    (hright : ¬ AwaitsOperand tokens) (hbalanced : o.requireBalanced = true →
      Category.startLevel.count tokens = Category.endLevel.count tokens) :
    Accepted v o tokens := by
  have hcounts := counts_of_fits hroot h
  have hmem (t : Token) (ht : t ∈ tokens) : ∃ ts, Fits v o ts t := by
    obtain ⟨ts, rest, rfl⟩ := List.append_of_mem ht
    exact ⟨ts, h ts t ⟨rest, by simp⟩⟩
  -- A closing parenthesis stands behind nothing that opens a build.
  have hnext (a b : Token) (hab : [a, b] <:+: tokens) (hb : b.category = .endLevel) :
      ¬ (a.category = .startLevel ∨ a.category = .operator) := by
    obtain ⟨ts, rest, rfl⟩ := hab
    have hfits := h (ts ++ [a]) b ⟨rest, by simp⟩
    simp only [Fits, hb, opensBuild_concat] at hfits
    exact hfits.2
  constructor
  case closed => exact fun ts hts => (hcounts ts hts).1
  case balanced => exact hbalanced
  case level_nonempty => exact fun a b hab ha hb => hnext a b hab hb (Or.inl ha)
  case operand_nonempty => exact fun a b hab ha hb => hnext a b hab hb (Or.inr ha)
  case left =>
    intro ts t b hts ht hb hbin
    have hfits := h ts t hts
    simp only [Fits, ht, hb] at hfits
    obtain ⟨_, hb', _, hopens⟩ := hfits
    cases hb'
    simpa [OpensBuild] using hopens hbin
  case right =>
    intro t ts hts ht
    by_contra hnone
    exact hright ⟨t, ts, hts, ht, by simpa using hnone⟩
  case bound =>
    intro t ht hop
    obtain ⟨ts, hfits⟩ := hmem t ht
    simp only [Fits, hop] at hfits
    obtain ⟨b, hb, _⟩ := hfits
    exact ⟨b, hb⟩
  case resolved =>
    intro t ht href
    obtain ⟨ts, hfits⟩ := hmem t ht
    simpa only [Fits, href] using hfits
  case within =>
    intro ts hts
    have := hcounts ts hts
    omega

/-- Tolerating siblings, exactly the accepted token sequences are policies. -/
theorem build_ok_iff_accepted {v : Vocabulary} {o : Options} (hkeep : o.siblings = .keepFirst)
    (tokens : List Token) :
    (∃ value, Expr.build v o tokens = .ok value) ↔ Accepted v o tokens := by
  constructor
  · rintro ⟨value, h⟩
    obtain ⟨hroot, m, hread, hfinish⟩ := Expr.build_eq_ok_iff.mp h
    obtain ⟨hunwind, hdepth⟩ := Machine.finish_eq_ok_iff.mp hfinish
    obtain ⟨hs, hhang⟩ := (Machine.exists_unwind_iff _ hkeep).mp ⟨value, hunwind⟩
    have hcount := Machine.depth_add_of_read hread
    refine accepted_of_fits hroot ((Machine.exists_read_iff hkeep).mp ⟨m, hread, hs⟩) ?_ ?_
    · exact fun hawaits => hhang ((Machine.hanging_iff hread).mpr hawaits)
    · intro hbalanced
      rw [hdepth hbalanced] at hcount
      simpa [Machine.start] using hcount.symm
  · intro h
    have hroot : 1 ≤ o.maxRecursion := by simpa using (h.within [] (List.nil_prefix)).2
    obtain ⟨m, hread, hs⟩ :=
      (Machine.exists_read_iff (v := v) hkeep).mpr fun ts t hts => fits_of_accepted h hts
    have hcount := Machine.depth_add_of_read hread
    have hhang : ¬ Machine.Hanging m.top m.below := by
      intro hh
      obtain ⟨t, ts, hts, ht, hall⟩ := (Machine.hanging_iff hread).mp hh
      obtain ⟨a, ha, hne⟩ := h.right t ts hts ht
      exact hne (hall a ha)
    obtain ⟨value, hunwind⟩ :=
      (Machine.exists_unwind_iff tokens.length hkeep).mpr ⟨hs, hhang⟩
    refine ⟨value, Expr.build_eq_ok_iff.mpr ⟨hroot, m, hread, ?_⟩⟩
    refine Machine.finish_eq_ok_iff.mpr ⟨hunwind, ?_⟩
    intro hbalanced
    have := h.balanced hbalanced
    simp only [Machine.start] at hcount
    omega

/-- An unclosed level and a dropped sibling are tolerated. -/
theorem accepted_unclosed_siblings :
    Options.compatible.siblings = .keepFirst ∧
      Accepted .standard .compatible [⟨"(", .startLevel⟩, ⟨"a", .literal⟩, ⟨"=", .operator⟩,
        ⟨"b", .literal⟩, ⟨"c", .literal⟩] :=
  ⟨rfl, (build_ok_iff_accepted rfl _).mp
    ⟨some (.operation .equals [.literal "a", .literal "b"]), by decide +kernel⟩⟩

end CertPolicy
