import CertPolicy.Proofs.Descent
import CertPolicy.Proofs.Machine.Counters

/-!
# The builds that are open

Recursive descent counts the builds that are open and the levels that are open, and the two are
changed at different places: a closing parenthesis ends a level and the innermost build, which need
not be the build of that level. Still, whenever a token is about to be read, the builds are those of
the policy, of the open levels and of the operators that have been read. So the first build is the
innermost one only if no level is open, and it cannot end in front of a token.
-/

namespace CertPolicy
set_option autoImplicit false

namespace Building
variable {v : Vocabulary} {o : Options} {b c d : Building} {t : Token} {rest tokens : List Token}

theorem Supplies.counts {e : Expr} (h : Supplies v t e) :
    Category.startLevel.count [t] = 0 ∧ Category.endLevel.count [t] = 0 ∧
      Category.operator.count [t] = 0 := by
  cases h with
  | literal ht => simp [ht]
  | reference ht => simp [ht]

/-- A nested build is one build more, and either one level more or one operator more. -/
theorem Starts.counts (h : Starts v o b t rest d) :
    d.builds = b.builds + 1 ∧ d.depth = b.depth + Category.startLevel.count [t] ∧
      Category.endLevel.count [t] = 0 ∧
      Category.startLevel.count [t] + Category.operator.count [t] = 1 := by
  cases h with
  | level ht => simp [ht]
  | operand ht => simp [ht]

/-- A build has read these tokens up to where it ends. If others are left, it has closed one level
more than it has opened, and one further level for each operator. -/
structure ReadTo (b : Building) (last : Built b.tokens) (read : List Token) : Prop where
  append_eq : read ++ last.rest = b.tokens
  index_eq : last.index = b.index + read.length
  depth_add : last.depth + Category.endLevel.count read = b.depth + Category.startLevel.count read
  depth_eq : last.rest ≠ [] → b.depth = last.depth + 1 + Category.operator.count read

theorem readTo_atEnd {last : Built b.tokens} (hb : b.tokens = []) (hindex : last.index = b.index)
    (hdepth : last.depth = b.depth) : b.ReadTo last [] := by
  have hlength := congrArg List.length hb
  have hle := last.length_le
  rw [hlength] at hle
  have hrest : last.rest = [] := List.eq_nil_of_length_eq_zero (Nat.le_zero.mp hle)
  refine ⟨?_, hindex, ?_, ?_⟩
  · rw [hrest, hb]
    rfl
  · rw [hdepth]
    rfl
  · exact fun hne => absurd hrest hne

theorem readTo_closed {last : Built b.tokens} (hb : b.tokens = t :: rest)
    (ht : t.category = .endLevel) (hrest : last.rest = rest) (hindex : last.index = b.index + 1)
    (hdepth : last.depth + 1 = b.depth) : b.ReadTo last [t] := by
  refine ⟨?_, hindex, ?_, ?_⟩
  · rw [hrest, hb]
    rfl
  · simpa [ht] using hdepth
  · intro _
    simp [ht, hdepth]

theorem ReadTo.collected {e : Expr} {final : Built rest} {read : List Token}
    (hb : b.tokens = t :: rest) (he : Supplies v t e) (h : (b.collect e rest).ReadTo final read) :
    b.ReadTo (final.within (length_rest_le hb)) (t :: read) := by
  obtain ⟨hstart, hend, hoperator⟩ := he.counts
  obtain ⟨happend, hindex, hdepth, hopen⟩ := h
  simp only [collect] at happend hindex hdepth hopen
  refine ⟨?_, ?_, ?_, ?_⟩
  · exact (congrArg (t :: ·) happend).trans hb.symm
  · simp only [Built.within, hindex, List.length_cons]
    omega
  · rw [Category.count_cons .endLevel, Category.count_cons .startLevel]
    simp only [Built.within]
    omega
  · intro hne
    have hopen := hopen hne
    rw [Category.count_cons .operator]
    simp only [Built.within]
    omega

theorem ReadTo.resumed {inner : Built d.tokens} {joined : List Expr} {final : Built inner.rest}
    {first second : List Token} (hb : b.tokens = t :: rest) (hd : Starts v o b t rest d)
    (hinner : d.ReadTo inner first) (hfinal : (b.resume joined inner).ReadTo final second) :
    b.ReadTo (final.within (hd.length_rest_le hb inner)) (t :: (first ++ second)) := by
  obtain ⟨_, hlevels, hend, hone⟩ := hd.counts
  obtain ⟨hfront, htokens, _⟩ := hd.begins
  obtain ⟨happend, hindex, hdepth, hopen⟩ := hinner
  obtain ⟨happend', hindex', hdepth', hopen'⟩ := hfinal
  simp only [resume] at happend' hindex' hdepth' hopen'
  refine ⟨?_, ?_, ?_, ?_⟩
  · have htail : first ++ second ++ final.rest = rest := by
      rw [List.append_assoc, happend', happend, htokens]
    exact (congrArg (t :: ·) htail).trans hb.symm
  · simp only [Built.within, List.length_cons, List.length_append]
    omega
  · rw [Category.count_cons .endLevel, Category.count_cons .startLevel, Category.count_append,
      Category.count_append]
    simp only [Built.within]
    omega
  · intro hne
    have hopen' := hopen' hne
    -- Tokens behind the second part are behind the first one too.
    have hinnerNe : inner.rest ≠ [] := by
      intro hnil
      have happend := happend'.trans hnil
      exact hne (List.append_eq_nil_iff.mp happend).2
    have hopen := hopen hinnerNe
    rw [Category.count_cons .operator, Category.count_append]
    simp only [Built.within]
    omega

theorem exists_readTo {last : Built b.tokens} (h : b.outcome v o = .ok last) :
    ∃ read, b.ReadTo last read := by
  induction hn : b.tokens.length using Nat.strongRecOn generalizing b with
  | ind n ih =>
    subst hn
    cases ends_of_outcome h with
    | atEnd hb hindex hdepth => exact ⟨[], readTo_atEnd hb hindex hdepth⟩
    | closed hb ht hrest hindex hdepth => exact ⟨_, readTo_closed hb ht hrest hindex hdepth⟩
    | collected hb he hfinal =>
      have hlt := (Next.collect (o := o) hb he).length_lt
      obtain ⟨read, hread⟩ := ih _ hlt hfinal rfl
      exact ⟨_, hread.collected hb he⟩
    | resumed hb hd hinner hjoined hfinal =>
      obtain ⟨first, hfirst⟩ := ih _ (hd.length_lt hb) hinner rfl
      obtain ⟨second, hsecond⟩ := ih _ (hd.length_rest_lt hb _) hfinal rfl
      exact ⟨_, hfirst.resumed hb hd hsecond⟩

/-- The tokens `read` come before those in front of the build, and their counts determine the
levels and, unless the tokens end here, the builds that are open. -/
structure Accounted (tokens : List Token) (b : Building) (read : List Token) : Prop where
  append_eq : read ++ b.tokens = tokens
  index_eq : b.index = read.length
  depth_add : b.depth + Category.endLevel.count read = Category.startLevel.count read
  builds_eq : b.tokens ≠ [] → b.builds = 1 + b.depth + Category.operator.count read

theorem Accounted.collect {read : List Token} {e : Expr} (hb : b.tokens = t :: rest)
    (he : Supplies v t e) (h : b.Accounted tokens read) :
    (b.collect e rest).Accounted tokens (read ++ [t]) := by
  obtain ⟨hstart, hend, hoperator⟩ := he.counts
  obtain ⟨happend, hindex, hdepth, hbuilds⟩ := h
  have hbuilds := hbuilds (hb ▸ List.cons_ne_nil t rest)
  refine ⟨?_, ?_, ?_, ?_⟩
  · rw [← happend, hb]
    exact List.append_cons read t rest |>.symm
  · simp [Building.collect, hindex]
  · simp only [Building.collect, Category.count_append]
    omega
  · intro _
    simp only [Building.collect, Category.count_append]
    omega

theorem Accounted.start {read : List Token} (hb : b.tokens = t :: rest)
    (hd : Starts v o b t rest d) (h : b.Accounted tokens read) :
    d.Accounted tokens (read ++ [t]) := by
  obtain ⟨hstarted, hlevels, hend, hone⟩ := hd.counts
  obtain ⟨hfront, htokens, _⟩ := hd.begins
  obtain ⟨happend, hindex, hdepth, hbuilds⟩ := h
  have hbuilds := hbuilds (hb ▸ List.cons_ne_nil t rest)
  refine ⟨?_, ?_, ?_, ?_⟩
  · rw [htokens, ← happend, hb]
    exact List.append_cons read t rest |>.symm
  · simp [hfront, hindex]
  · rw [Category.count_append, Category.count_append]
    omega
  · intro _
    rw [Category.count_append]
    omega

/-- The build goes on with the builds that were open before the nested one: the levels that the
nested one has closed beyond its own are those of the operators it has read. -/
theorem Accounted.resume {read passed : List Token} {inner : Built d.tokens} {joined : List Expr}
    (hb : b.tokens = t :: rest) (hd : Starts v o b t rest d) (hinner : d.ReadTo inner passed)
    (h : b.Accounted tokens read) :
    (b.resume joined inner).Accounted tokens (read ++ [t] ++ passed) := by
  have hstart := h.start hb hd
  obtain ⟨happend, hindex, hdepth, _⟩ := hstart
  obtain ⟨happend', hindex', hdepth', hopen⟩ := hinner
  obtain ⟨_, hlevels, _, hone⟩ := hd.counts
  have hbuilds := h.builds_eq (hb ▸ List.cons_ne_nil t rest)
  refine ⟨?_, ?_, ?_, ?_⟩
  · rw [List.append_assoc, ← happend]
    exact congrArg (read ++ [t] ++ ·) happend'
  · rw [List.length_append, ← hindex]
    exact hindex'
  · simp only [Building.resume, Category.count_append] at hdepth ⊢
    omega
  · intro hne
    have hopen := hopen hne
    simp only [Building.resume, Category.count_append]
    omega

theorem Next.accounted {read : List Token} (hc : Next v o b c) (h : b.Accounted tokens read) :
    ∃ read', c.Accounted tokens read' := by
  cases hc with
  | collect hb he => exact ⟨_, h.collect hb he⟩
  | start hb hd => exact ⟨_, h.start hb hd⟩
  | resume hb hd hinner =>
    obtain ⟨passed, hpassed⟩ := exists_readTo hinner
    exact ⟨_, h.resume hb hd hpassed⟩

theorem Reached.exists_accounted (h : Reached v o tokens b) :
    ∃ read, b.Accounted tokens read := by
  induction h with
  | root => exact ⟨[], rfl, rfl, rfl, fun _ => rfl⟩
  | next _ hc ih =>
    obtain ⟨read, hread⟩ := ih
    exact hc.accounted hread

/-- The build of the whole policy is the first one. -/
theorem Reached.builds_eq_one (h : Reached v o tokens b) (hroot : b.scope = .root) :
    b.builds = 1 := by
  induction h with
  | root => rfl
  | next _ hc ih =>
    cases hc with
    | collect => exact ih hroot
    | start _ hd => exact absurd hroot hd.begins.2.2
    | resume => exact ih hroot

theorem Reached.depth_eq_zero (h : Reached v o tokens b) (hroot : b.scope = .root)
    (hne : b.tokens ≠ []) : b.depth = 0 := by
  obtain ⟨read, hread⟩ := h.exists_accounted
  have hbuilds := hread.builds_eq hne
  rw [h.builds_eq_one hroot] at hbuilds
  omega

theorem outcome_of_endLevel (hb : b.tokens = t :: rest) (ht : t.category = .endLevel)
    (hdepth : b.depth = 0) : b.outcome v o = .error (.grammar (.strayEndLevel b.index)) := by
  obtain ⟨scope, builds, pending, index, depth, tokens⟩ := b
  obtain rfl : tokens = t :: rest := hb
  obtain rfl : depth = 0 := hdepth
  simp only [outcome, Expr.buildFrom, ht]
  rfl

theorem Reached.rest_eq_nil {last : Built b.tokens} (h : Reached v o tokens b)
    (hroot : b.scope = .root) (hlast : b.outcome v o = .ok last) : last.rest = [] := by
  obtain ⟨read, hread⟩ := exists_readTo hlast
  by_contra hne
  have htokens : b.tokens ≠ [] := by
    intro hnil
    have happ := hread.append_eq.trans hnil
    exact hne (List.append_eq_nil_iff.mp happ).2
  have hdepth := hread.depth_eq hne
  rw [h.depth_eq_zero hroot htokens] at hdepth
  omega

/-- A build comes up in front of each token from place `i` on and before place `j`. -/
def Covered (v : Vocabulary) (o : Options) (tokens : List Token) (i j : Nat) : Prop :=
  ∀ k, i ≤ k → k < j → ∃ b, Reached v o tokens b ∧ b.index = k ∧ b.tokens ≠ []

theorem covered_self (i : Nat) : Covered v o tokens i i := by
  intro k hi hk
  exact absurd hk (Nat.not_lt.mpr hi)

theorem Covered.trans {i j k : Nat} (hij : Covered v o tokens i j)
    (hjk : Covered v o tokens j k) : Covered v o tokens i k := by
  intro n hi hk
  rcases Nat.lt_or_ge n j with hj | hj
  · exact hij n hi hj
  · exact hjk n hj hk

theorem Reached.covered_succ (h : Reached v o tokens b) (hb : b.tokens ≠ []) :
    Covered v o tokens b.index (b.index + 1) := by
  intro k hi hk
  exact ⟨b, h, Nat.le_antisymm hi (Nat.lt_succ_iff.mp hk), hb⟩

/-- For each token that a successful build reads, it comes up in front of the token, or a nested
build does. -/
theorem Reached.covered {last : Built b.tokens} (h : Reached v o tokens b)
    (hlast : b.outcome v o = .ok last) : Covered v o tokens b.index last.index := by
  induction hn : b.tokens.length using Nat.strongRecOn generalizing b with
  | ind n ih =>
    subst hn
    cases ends_of_outcome hlast with
    | atEnd _ hindex =>
      rw [hindex]
      exact covered_self _
    | closed hb _ _ hindex =>
      rw [hindex]
      exact h.covered_succ (hb ▸ List.cons_ne_nil _ _)
    | collected hb he hfinal =>
      have hnext := Next.collect (o := o) hb he
      have hcovered := ih _ hnext.length_lt (h.next hnext) hfinal rfl
      exact (h.covered_succ hnext.tokens_ne_nil).trans hcovered
    | resumed hb hd hinner hjoined hfinal =>
      have hstart := Next.start hb hd
      have hresume := Next.resume hb hd hinner hjoined
      have hfirst := ih _ hstart.length_lt (h.next hstart) hinner rfl
      have hsecond := ih _ hresume.length_lt (h.next hresume) hfinal rfl
      rw [hd.begins.1] at hfirst
      exact ((h.covered_succ hstart.tokens_ne_nil).trans hfirst).trans hsecond

/-- No token is left out in front of what a build starts or goes on as. -/
theorem Reached.covered_of_next (h : Reached v o tokens b) (hc : Next v o b c) :
    Covered v o tokens b.index c.index := by
  have hsucc := h.covered_succ hc.tokens_ne_nil
  cases hc with
  | collect => exact hsucc
  | start _ hd =>
    rw [hd.begins.1]
    exact hsucc
  | resume hb hd hinner =>
    have hnested := (h.next (.start hb hd)).covered hinner
    rw [hd.begins.1] at hnested
    exact hsucc.trans hnested

/-- A build that fails does so at some place, and up to there a build comes up in front of each
token. -/
theorem Reached.exists_stops {e : BuildError} (h : Reached v o tokens b)
    (he : b.outcome v o = .error e) :
    ∃ c, Reached v o tokens c ∧ Stops v o c e ∧ Covered v o tokens b.index c.index := by
  induction hn : b.tokens.length using Nat.strongRecOn generalizing b with
  | ind n ih =>
    subst hn
    by_cases hnext : ∀ c, Next v o b c → ∃ last, c.outcome v o = .ok last
    · exact ⟨b, h, ⟨he, hnext⟩, covered_self _⟩
    · push Not at hnext
      obtain ⟨c, hc, hfails⟩ := hnext
      have hce : c.outcome v o = .error e := by
        cases hoc : c.outcome v o with
        | ok last => exact absurd hoc (hfails last)
        | error e' =>
          have herror := (hc.outcome_eq_error hoc).symm.trans he
          rw [Except.error.inj herror]
      obtain ⟨d, hd, hstops, hcovered⟩ := ih _ hc.length_lt (h.next hc) hce rfl
      exact ⟨d, hd, hstops, (h.covered_of_next hc).trans hcovered⟩

theorem Stops.next_ne_error {e : BuildError} (h : Stops v o b e) (hc : Next v o b c) :
    c.outcome v o ≠ .error e := by
  obtain ⟨last, hlast⟩ := h.next_ok c hc
  rw [hlast]
  exact nofun

theorem deliver_ne_emptyLevel {scope : Scope} {pending : List Expr} {value : Option Expr}
    {i : Nat} : scope.deliver pending value ≠ .error (.grammar (.emptyLevel i)) := by
  intro h
  cases scope with
  | root | level => cases h
  | operand =>
    rcases apply_eq_error_iff.mp h with ⟨_, he⟩ | ⟨_, _, he⟩
    · cases he
    · cases he

theorem outcome_ne_emptyLevel_of_nil {i : Nat} (hb : b.tokens = []) :
    b.outcome v o ≠ .error (.grammar (.emptyLevel i)) := by
  intro h
  obtain ⟨scope, builds, pending, index, depth, tokens⟩ := b
  obtain rfl : tokens = [] := hb
  simp only [outcome, Expr.buildFrom] at h
  rcases bind_eq_error_iff.mp h with hreduce | ⟨_, _, h⟩
  · obtain ⟨_, _, he⟩ := reduce_eq_error_iff.mp hreduce
    cases he
  · cases h

/-- Only a closing parenthesis ends a level that is empty. -/
theorem Stops.of_emptyLevel {i : Nat} (h : Stops v o b (.grammar (.emptyLevel i))) :
    ∃ t rest, b.tokens = t :: rest ∧ t.category = .endLevel := by
  have houtcome := h.outcome_eq
  cases front v o b with
  | ends hb => exact absurd houtcome (outcome_ne_emptyLevel_of_nil hb)
  | closes hb ht => exact ⟨_, _, hb, ht⟩
  | supplies hb he =>
    have hnext := Next.collect (o := o) hb he
    rw [he.outcome_eq hb] at houtcome
    rcases bind_eq_error_iff.mp houtcome with hfails | ⟨_, _, houtcome⟩
    · exact absurd hfails (h.next_ne_error hnext)
    · cases houtcome
  | starts hb hd =>
    rw [hd.outcome_eq hb] at houtcome
    rcases bind_eq_error_iff.mp houtcome with hfails | ⟨inner, hinner, houtcome⟩
    · exact absurd hfails (h.next_ne_error (.start hb hd))
    · rcases bind_eq_error_iff.mp houtcome with hfails | ⟨joined, hjoined, houtcome⟩
      · exact absurd hfails deliver_ne_emptyLevel
      · rcases bind_eq_error_iff.mp houtcome with hfails | ⟨_, _, houtcome⟩
        · exact absurd hfails (h.next_ne_error (.resume hb hd hinner hjoined))
        · cases houtcome
  | fails hfails hlevel =>
    rw [hfails] at houtcome
    exact absurd (Except.error.inj houtcome) (hlevel i)

theorem Reached.not_emptyLevel {i : Nat} (h : Reached v o tokens b) (hroot : b.scope = .root) :
    ¬ Stops v o b (.grammar (.emptyLevel i)) := by
  intro hstops
  obtain ⟨t, rest, hb, ht⟩ := hstops.of_emptyLevel
  have hdepth := h.depth_eq_zero hroot (hb ▸ List.cons_ne_nil t rest)
  have houtcome := hstops.outcome_eq
  rw [outcome_of_endLevel hb ht hdepth] at houtcome
  cases houtcome

theorem exists_of_build {value : Option Expr} (h : Expr.build v o tokens = .ok value) :
    1 ≤ o.maxRecursion ∧ ∃ last, (root tokens).outcome v o = .ok last ∧ last.value = value := by
  unfold Expr.build at h
  split at h
  · cases h
  · rename_i hroom
    obtain ⟨last, hlast, h⟩ := bind_eq_ok_iff.mp h
    split at h
    · cases h
    · exact ⟨Nat.not_lt.mp hroom, last, hlast, Except.ok.inj h⟩

/-- The build of a whole policy that succeeds ends behind the last token. -/
theorem index_eq_length {last : Built (root tokens).tokens} (hroom : 1 ≤ o.maxRecursion)
    (h : (root tokens).outcome v o = .ok last) : last.index = tokens.length := by
  obtain ⟨read, hread⟩ := exists_readTo h
  have hnil := (Reached.root hroom).rest_eq_nil rfl h
  have happend := hread.append_eq
  rw [hnil, List.append_nil] at happend
  have hindex := hread.index_eq
  rw [happend] at hindex
  exact hindex.trans (Nat.zero_add _)

/-- The accounts of the builds that are open, and what they mean for the first one.

In front of each token, the builds are the first one, those of the open levels and those of the
operators that have been read. So where a level ends, the first build can only be the innermost one
if no level is open, and then it fails for that reason. If it succeeds, all tokens have been read.
Until a policy is read or an error ends the reading, a build has been in front of each token. -/
theorem builds_eq_levels_add_operators (v : Vocabulary) (o : Options) (tokens : List Token) :
    (∀ b t rest, Reached v o tokens b → b.tokens = t :: rest →
      ∃ read, read ++ t :: rest = tokens ∧ b.index = read.length ∧
        b.builds = 1 + b.depth + Category.operator.count read ∧
        b.depth + Category.endLevel.count read = Category.startLevel.count read) ∧
    (∀ b, Reached v o tokens b → b.scope = .root →
      (∀ t rest, b.tokens = t :: rest → t.category = .endLevel →
        b.depth = 0 ∧ b.outcome v o = .error (.grammar (.strayEndLevel b.index))) ∧
      (∀ last, b.outcome v o = .ok last → last.rest = []) ∧
      ∀ i, ¬ Stops v o b (.grammar (.emptyLevel i))) ∧
    (∀ value, Expr.build v o tokens = .ok value →
      ∃ last, (root tokens).outcome v o = .ok last ∧ last.value = value ∧ last.rest = [] ∧
        last.index = tokens.length ∧ Covered v o tokens 0 tokens.length) ∧
    (∀ e, 1 ≤ o.maxRecursion → (root tokens).outcome v o = .error e →
      ∃ b, Reached v o tokens b ∧ Stops v o b e ∧ Covered v o tokens 0 b.index) := by
  refine ⟨?_, ?_, ?_, ?_⟩
  · intro b t rest h hb
    obtain ⟨read, hread⟩ := h.exists_accounted
    have hbuilds := hread.builds_eq (hb ▸ List.cons_ne_nil t rest)
    exact ⟨read, hb ▸ hread.append_eq, hread.index_eq, hbuilds, hread.depth_add⟩
  · intro b h hroot
    refine ⟨?_, fun last hlast => h.rest_eq_nil hroot hlast, fun i => h.not_emptyLevel hroot⟩
    intro t rest hb ht
    have hdepth := h.depth_eq_zero hroot (hb ▸ List.cons_ne_nil t rest)
    exact ⟨hdepth, outcome_of_endLevel hb ht hdepth⟩
  · intro value h
    obtain ⟨hroom, last, hlast, hvalue⟩ := exists_of_build h
    have hroot : Reached v o tokens (root tokens) := .root hroom
    have hindex := index_eq_length hroom hlast
    have hcovered := hroot.covered hlast
    rw [hindex] at hcovered
    exact ⟨last, hlast, hvalue, hroot.rest_eq_nil rfl hlast, hindex, hcovered⟩
  · intro e hroom he
    exact (Reached.root hroom).exists_stops he

/-- The parenthesis ends the operand, and the level ends with the tokens. Without the level, the
parenthesis meets the first build. -/
theorem builds_eq_levels_add_operators_operand :
    (∃ read, read ++ [⟨")", .endLevel⟩] = [⟨"(", .startLevel⟩, ⟨"a", .literal⟩, ⟨"=", .operator⟩,
        ⟨"b", .literal⟩, ⟨")", .endLevel⟩] ∧ 4 = read.length ∧
      3 = 1 + 1 + Category.operator.count read ∧
      1 + Category.endLevel.count read = Category.startLevel.count read) ∧
    (∃ last, (root [⟨"(", .startLevel⟩, ⟨"a", .literal⟩, ⟨"=", .operator⟩, ⟨"b", .literal⟩,
        ⟨")", .endLevel⟩]).outcome .standard .strict = .ok last ∧
      last.value = some (.operation .equals [.literal "a", .literal "b"]) ∧ last.rest = [] ∧
      last.index = 5) ∧
    (root [⟨"a", .literal⟩, ⟨")", .endLevel⟩]).outcome .standard .strict =
      .error (.grammar (.strayEndLevel 1)) := by
  obtain ⟨hfetch, _, hok, _⟩ := builds_eq_levels_add_operators .standard .strict
    [⟨"(", .startLevel⟩, ⟨"a", .literal⟩, ⟨"=", .operator⟩, ⟨"b", .literal⟩, ⟨")", .endLevel⟩]
  obtain ⟨_, hroot, _⟩ := builds_eq_levels_add_operators .standard .strict
    [⟨"a", .literal⟩, ⟨")", .endLevel⟩]
  refine ⟨?_, ?_, ?_⟩
  · have hfirst : Reached .standard .strict [⟨"(", .startLevel⟩, ⟨"a", .literal⟩,
        ⟨"=", .operator⟩, ⟨"b", .literal⟩, ⟨")", .endLevel⟩] _ := .root (by decide)
    have hlevel := hfirst.next (.start rfl (.level rfl (by decide) (by decide)))
    have hleft := hlevel.next (.collect rfl (.literal rfl))
    have hoperand := hleft.next (.start rfl (.operand rfl rfl (by decide)))
    have hright := hoperand.next (.collect rfl (.literal rfl))
    exact hfetch _ _ _ hright rfl
  · have hbuild : Expr.build .standard .strict [⟨"(", .startLevel⟩, ⟨"a", .literal⟩,
        ⟨"=", .operator⟩, ⟨"b", .literal⟩, ⟨")", .endLevel⟩] =
        .ok (some (.operation .equals [.literal "a", .literal "b"])) := by
      decide +kernel
    obtain ⟨last, hlast, hvalue, hrest, hindex, _⟩ := hok _ hbuild
    exact ⟨last, hlast, hvalue, hrest, hindex⟩
  · have hfirst : Reached .standard .strict [⟨"a", .literal⟩, ⟨")", .endLevel⟩] _ :=
      .root (by decide)
    have hleft := hfirst.next (.collect rfl (.literal rfl))
    obtain ⟨hclosing, _⟩ := hroot _ hleft rfl
    have hstray := (hclosing _ _ rfl rfl).2
    exact (Next.collect rfl (.literal rfl)).outcome_eq_error hstray

end Building
end CertPolicy
