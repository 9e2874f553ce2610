import CertPolicy.Expr.Build
import CertPolicy.Proofs.Grammar

/-!
# How recursive descent goes on

The builds that come up while a policy is read, each in front of the tokens that are left to it.
A build goes on behind a token that supplies an expression, or starts a nested build and goes on
behind that. What it supplies follows from what these builds supply.
-/

namespace CertPolicy
set_option autoImplicit false

/-- A build in front of the tokens that are left. -/
structure Building where
  scope : Scope
  builds : Nat
  pending : List Expr
  index : Nat
  depth : Nat
  tokens : List Token

namespace Building
variable {v : Vocabulary} {o : Options} {b c d : Building} {t : Token} {rest tokens : List Token}

/-- The build of a whole policy. -/
def root (tokens : List Token) : Building := ⟨.root, 1, [], 0, 0, tokens⟩

def outcome (v : Vocabulary) (o : Options) (b : Building) : Except BuildError (Built b.tokens) :=
  Expr.buildFrom v o b.scope b.builds b.pending b.index b.depth b.tokens

/-- A token that supplies an expression by itself. -/
inductive Supplies (v : Vocabulary) (t : Token) : Expr → Prop
  | literal (ht : t.category = .literal) : Supplies v t (.literal t.text)
  | reference {f : Field} (ht : t.category = .reference)
      (hf : v.fields.resolveRequired t.text = .ok f) : Supplies v t (.field f)

/-- The nested build that a token starts, with the rest of the tokens in front of it. -/
inductive Starts (v : Vocabulary) (o : Options) (b : Building) (t : Token) (rest : List Token) :
    Building → Prop
  | level (ht : t.category = .startLevel) (hdepth : b.depth + 1 ≤ o.maxDepth)
      (hbuilds : b.builds + 1 ≤ o.maxRecursion) :
      Starts v o b t rest ⟨.level, b.builds + 1, [], b.index + 1, b.depth + 1, rest⟩
  | operand {operator : Binding} (ht : t.category = .operator)
      (hoperator : v.operators.find? t.text = some operator)
      (hbuilds : b.builds + 1 ≤ o.maxRecursion) :
      Starts v o b t rest
        ⟨.operand operator b.index, b.builds + 1, [], b.index + 1, b.depth, rest⟩

/-- The same build behind a token that supplies an expression. -/
def collect (b : Building) (e : Expr) (rest : List Token) : Building :=
  { b with pending := b.pending ++ [e], index := b.index + 1, tokens := rest }

/-- The same build behind a nested one. -/
def resume (b : Building) (pending : List Expr) (inner : Built rest) : Building :=
  { b with pending := pending, index := inner.index, depth := inner.depth, tokens := inner.rest }

/-- A build goes on behind a token, or starts a nested build there, or goes on behind a nested build
that has ended. -/
inductive Next (v : Vocabulary) (o : Options) (b : Building) : Building → Prop
  | collect {t : Token} {rest : List Token} {e : Expr} (hb : b.tokens = t :: rest)
      (he : Supplies v t e) : Next v o b (b.collect e rest)
  | start {t : Token} {rest : List Token} {d : Building} (hb : b.tokens = t :: rest)
      (hd : Starts v o b t rest d) : Next v o b d
  | resume {t : Token} {rest : List Token} {d : Building} {inner : Built d.tokens}
      {joined : List Expr} (hb : b.tokens = t :: rest) (hd : Starts v o b t rest d)
      (hinner : d.outcome v o = .ok inner)
      (hjoined : d.scope.deliver b.pending inner.value = .ok joined) :
      Next v o b (b.resume joined inner)

/-- The builds that come up in front of tokens while a policy is read. -/
inductive Reached (v : Vocabulary) (o : Options) (tokens : List Token) : Building → Prop
  | root (h : 1 ≤ o.maxRecursion) : Reached v o tokens (root tokens)
  | next {b c : Building} (hb : Reached v o tokens b) (hc : Next v o b c) : Reached v o tokens c

/-- A build that fails at the token in front of it or at the end of the tokens: what it starts and
what it goes on as there succeeds. -/
structure Stops (v : Vocabulary) (o : Options) (b : Building) (e : BuildError) : Prop where
  outcome_eq : b.outcome v o = .error e
  next_ok : ∀ c, Next v o b c → ∃ last, c.outcome v o = .ok last

theorem Starts.begins (h : Starts v o b t rest d) :
    d.index = b.index + 1 ∧ d.tokens = rest ∧ d.scope ≠ .root := by
  cases h with
  | level => exact ⟨rfl, rfl, Scope.noConfusion⟩
  | operand => exact ⟨rfl, rfl, Scope.noConfusion⟩

theorem Starts.length_lt (h : Starts v o b t rest d) (hb : b.tokens = t :: rest) :
    d.tokens.length < b.tokens.length := by
  rw [h.begins.2.1, hb]
  exact Nat.lt_succ_self _

theorem Starts.length_rest_lt (h : Starts v o b t rest d) (hb : b.tokens = t :: rest)
    (inner : Built d.tokens) : inner.rest.length < b.tokens.length :=
  Nat.lt_of_le_of_lt inner.length_le (h.length_lt hb)

theorem Starts.length_rest_le (h : Starts v o b t rest d) (hb : b.tokens = t :: rest)
    (inner : Built d.tokens) : inner.rest.length ≤ b.tokens.length :=
  Nat.le_of_lt (h.length_rest_lt hb inner)

theorem length_rest_le (hb : b.tokens = t :: rest) : rest.length ≤ b.tokens.length := by
  rw [hb]
  exact Nat.le_succ _

theorem Next.tokens_ne_nil (h : Next v o b c) : b.tokens ≠ [] := by
  cases h with
  | collect hb | start hb | resume hb =>
    rw [hb]
    exact List.cons_ne_nil _ _

theorem Next.length_lt (h : Next v o b c) : c.tokens.length < b.tokens.length := by
  cases h with
  | collect hb =>
    rw [hb]
    exact Nat.lt_succ_self _
  | start hb hd => exact hd.length_lt hb
  | resume hb hd =>
    rename_i inner _ _ _
    exact hd.length_rest_lt hb inner

/-- A build behind a token that supplies an expression supplies what it goes on to supply. -/
theorem Supplies.outcome_eq {e : Expr} (he : Supplies v t e) (hb : b.tokens = t :: rest) :
    b.outcome v o =
      (b.collect e rest).outcome v o >>= fun final => .ok (final.within (length_rest_le hb)) := by
  obtain ⟨scope, builds, pending, index, depth, tokens⟩ := b
  obtain rfl : tokens = t :: rest := hb
  cases he with
  | literal ht => simp only [outcome, collect, Expr.buildFrom, ht, pure_eq_ok]
  | reference ht hf => simp only [outcome, collect, Expr.buildFrom, ht, hf, pure_eq_ok]

/-- A nested build comes first, then its value is delivered, and then the build goes on. -/
theorem Starts.outcome_eq (hd : Starts v o b t rest d) (hb : b.tokens = t :: rest) :
    b.outcome v o = d.outcome v o >>= fun inner =>
      d.scope.deliver b.pending inner.value >>= fun joined =>
        (b.resume joined inner).outcome v o >>= fun final =>
          .ok (final.within (hd.length_rest_le hb inner)) := by
  obtain ⟨scope, builds, pending, index, depth, tokens⟩ := b
  obtain rfl : tokens = t :: rest := hb
  cases hd with
  | level ht hdepth hbuilds =>
    simp only [outcome, resume, Expr.buildFrom, ht, Scope.deliver, pure_eq_ok, ok_bind,
      if_neg (Nat.not_lt.mpr hdepth), if_neg (Nat.not_lt.mpr hbuilds)]
  | operand ht hoperator hbuilds =>
    simp only [outcome, resume, Expr.buildFrom, ht, hoperator, Scope.deliver, pure_eq_ok,
      if_neg (Nat.not_lt.mpr hbuilds)]

/-- An error leaves all builds that are open. -/
theorem Next.outcome_eq_error {e : BuildError} (h : Next v o b c)
    (hc : c.outcome v o = .error e) : b.outcome v o = .error e := by
  cases h with
  | collect hb he => rw [he.outcome_eq hb, hc, error_bind]
  | start hb hd => rw [hd.outcome_eq hb, hc, error_bind]
  | resume hb hd hinner hjoined =>
    rw [hd.outcome_eq hb, hinner, ok_bind, hjoined, ok_bind, hc, error_bind]

/-- What a build can do in front of its tokens. If it can do nothing, it fails, and not because of
an empty level. -/
inductive Front (v : Vocabulary) (o : Options) (b : Building) : Prop
  | ends (hb : b.tokens = [])
  | closes {t : Token} {rest : List Token} (hb : b.tokens = t :: rest)
      (ht : t.category = .endLevel)
  | supplies {t : Token} {rest : List Token} {e : Expr} (hb : b.tokens = t :: rest)
      (he : Supplies v t e)
  | starts {t : Token} {rest : List Token} {d : Building} (hb : b.tokens = t :: rest)
      (hd : Starts v o b t rest d)
  | fails {e : BuildError} (houtcome : b.outcome v o = .error e)
      (hlevel : ∀ i, e ≠ .grammar (.emptyLevel i))

theorem front (v : Vocabulary) (o : Options) (b : Building) : Front v o b := by
  obtain ⟨scope, builds, pending, index, depth, tokens⟩ := b
  cases tokens with
  | nil => exact .ends rfl
  | cons t rest =>
    cases ht : t.category with
    | startLevel =>
      by_cases hdepth : depth + 1 ≤ o.maxDepth
      · by_cases hbuilds : builds + 1 ≤ o.maxRecursion
        · exact .starts rfl (.level ht hdepth hbuilds)
        · have houtcome : outcome v o ⟨scope, builds, pending, index, depth, t :: rest⟩ =
              .error (.grammar (.buildsTooDeep o.maxRecursion index)) := by
            simp only [outcome, Expr.buildFrom, ht, if_neg (Nat.not_lt.mpr hdepth),
              if_pos (Nat.not_le.mp hbuilds)]
          exact .fails houtcome (by simp)
      · have houtcome : outcome v o ⟨scope, builds, pending, index, depth, t :: rest⟩ =
            .error (.grammar (.nestingTooDeep o.maxDepth index)) := by
          simp only [outcome, Expr.buildFrom, ht, if_pos (Nat.not_le.mp hdepth)]
        exact .fails houtcome (by simp)
    | endLevel => exact .closes rfl ht
    | operator =>
      cases hoperator : v.operators.find? t.text with
      | none =>
        have houtcome : outcome v o ⟨scope, builds, pending, index, depth, t :: rest⟩ =
            .error (.unknownOperator t.text) := by
          simp only [outcome, Expr.buildFrom, ht, hoperator]
        exact .fails houtcome (by simp)
      | some operator =>
        by_cases hbuilds : builds + 1 ≤ o.maxRecursion
        · exact .starts rfl (.operand ht hoperator hbuilds)
        · have houtcome : outcome v o ⟨scope, builds, pending, index, depth, t :: rest⟩ =
              .error (.grammar (.buildsTooDeep o.maxRecursion index)) := by
            simp only [outcome, Expr.buildFrom, ht, hoperator, if_pos (Nat.not_le.mp hbuilds)]
          exact .fails houtcome (by simp)
    | literal => exact .supplies rfl (.literal ht)
    | reference =>
      cases hf : v.fields.resolveRequired t.text with
      | error cause =>
        have houtcome : outcome v o ⟨scope, builds, pending, index, depth, t :: rest⟩ =
            .error (.resolution cause) := by
          simp only [outcome, Expr.buildFrom, ht, hf]
        exact .fails houtcome (by simp)
      | ok f => exact .supplies rfl (.reference ht hf)

/-- How a build that succeeds ends: at the end of the tokens, at a closing parenthesis, or as what
it goes on as ends, once the nested build has ended that comes before. -/
inductive Ends (v : Vocabulary) (o : Options) (b : Building) : Built b.tokens → Prop
  | atEnd {last : Built b.tokens} (hb : b.tokens = []) (hindex : last.index = b.index)
      (hdepth : last.depth = b.depth) : Ends v o b last
  | closed {last : Built b.tokens} {t : Token} {rest : List Token} (hb : b.tokens = t :: rest)
      (ht : t.category = .endLevel) (hrest : last.rest = rest)
      (hindex : last.index = b.index + 1) (hdepth : last.depth + 1 = b.depth) : Ends v o b last
  | collected {t : Token} {rest : List Token} {e : Expr} {final : Built rest}
      (hb : b.tokens = t :: rest) (he : Supplies v t e)
      (hfinal : (b.collect e rest).outcome v o = .ok final) :
      Ends v o b (final.within (length_rest_le hb))
  | resumed {t : Token} {rest : List Token} {d : Building} {inner : Built d.tokens}
      {joined : List Expr} {final : Built inner.rest} (hb : b.tokens = t :: rest)
      (hd : Starts v o b t rest d) (hinner : d.outcome v o = .ok inner)
      (hjoined : d.scope.deliver b.pending inner.value = .ok joined)
      (hfinal : (b.resume joined inner).outcome v o = .ok final) :
      Ends v o b (final.within (hd.length_rest_le hb inner))

theorem ends_of_nil {last : Built b.tokens} (hb : b.tokens = [])
    (h : b.outcome v o = .ok last) : Ends v o b last := by
  obtain ⟨scope, builds, pending, index, depth, tokens⟩ := b
  obtain rfl : tokens = [] := hb
  simp only [outcome, Expr.buildFrom] at h
  obtain ⟨value, _, h⟩ := bind_eq_ok_iff.mp h
  obtain rfl := Except.ok.inj h
  exact .atEnd rfl rfl rfl

theorem ends_of_endLevel {last : Built b.tokens} (hb : b.tokens = t :: rest)
    (ht : t.category = .endLevel) (h : b.outcome v o = .ok last) : Ends v o b last := by
  obtain ⟨scope, builds, pending, index, depth, tokens⟩ := b
  obtain rfl : tokens = t :: rest := hb
  simp only [outcome, Expr.buildFrom, ht] at h
  split at h
  · cases h
  · rename_i hdepth
    split at h
    · cases h
    · obtain ⟨value, _, h⟩ := bind_eq_ok_iff.mp h
      obtain rfl := Except.ok.inj h
      exact .closed rfl ht rfl rfl (Nat.succ_pred_eq_of_ne_zero hdepth)

theorem ends_of_outcome {last : Built b.tokens} (h : b.outcome v o = .ok last) :
    Ends v o b last := by
  cases front v o b with
  | ends hb => exact ends_of_nil hb h
  | closes hb ht => exact ends_of_endLevel hb ht h
  | supplies hb he =>
    rw [he.outcome_eq hb] at h
    obtain ⟨final, hfinal, h⟩ := bind_eq_ok_iff.mp h
    obtain rfl := Except.ok.inj h
    exact .collected hb he hfinal
  | starts hb hd =>
    rw [hd.outcome_eq hb] at h
    obtain ⟨inner, hinner, h⟩ := bind_eq_ok_iff.mp h
    obtain ⟨joined, hjoined, h⟩ := bind_eq_ok_iff.mp h
    obtain ⟨final, hfinal, h⟩ := bind_eq_ok_iff.mp h
    obtain rfl := Except.ok.inj h
    exact .resumed hb hd hinner hjoined hfinal
  | fails houtcome =>
    rw [houtcome] at h
    cases h

end Building
end CertPolicy
