import Mathlib.Data.List.Chain
import CertPolicy.Proofs.Machine.Counters
import CertPolicy.Proofs.Machine.Errors

/-!
# What errors tell

A grammar error is about one token, and what it says of that token shows in the tokens beside it
and in the number of parentheses (`GrammarError.Applies`). It may be found in another build than
that of the token, though, and only when an operand has been read up to the end of the policy. For
that, `Frame.Placed` ties an open operator to its place, and the frame below it to what stands in
front of that place.

What is found at a token does not depend on the tokens behind it, so an error that the end of a
policy cannot cause (`BuildError.Settled`) stays whatever is added.
-/

namespace CertPolicy
set_option autoImplicit false

def categoryAt? (tokens : List Token) (i : Nat) : Option Category :=
  tokens[i]?.map (·.category)

@[simp] theorem categoryAt?_length (ts rest : List Token) (t : Token) :
    categoryAt? (ts ++ t :: rest) ts.length = some t.category := by
  simp [categoryAt?]

/-- What a grammar error says of the tokens is so. -/
def GrammarError.Applies (v : Vocabulary) (o : Options) (tokens : List Token) :
    GrammarError → Prop
  | .strayEndLevel i => categoryAt? tokens i = some .endLevel ∧
      Category.startLevel.count (tokens.take i) = Category.endLevel.count (tokens.take i)
  | .missingOperand operator i => tokens[i]? = some ⟨operator, .operator⟩ ∧
      (categoryAt? tokens (i + 1) = some .endLevel ∨
        ∀ t ∈ tokens.drop (i + 1), t.category = .startLevel)
  | .tooFewOperands operator i => tokens[i]? = some ⟨operator, .operator⟩ ∧
      (∃ b, v.operators.find? operator = some b ∧ b.arity = .binary) ∧
      (i = 0 ∨ categoryAt? tokens (i - 1) = some .startLevel ∨
        categoryAt? tokens (i - 1) = some .operator)
  | .emptyLevel i => categoryAt? tokens i = some .endLevel ∧ 0 < i ∧
      categoryAt? tokens (i - 1) = some .startLevel
  | .unjoinedSiblings count i => o.siblings = .reject ∧ 2 ≤ count ∧
      (i = tokens.length ∨ categoryAt? tokens i = some .endLevel)
  | .unclosedLevels count => o.requireBalanced = true ∧ 0 < count ∧
      Category.startLevel.count tokens = Category.endLevel.count tokens + count
  | .nestingTooDeep limit i => limit = o.maxDepth ∧ categoryAt? tokens i = some .startLevel
  | .buildsTooDeep limit i => limit = o.maxRecursion ∧
      (limit = 0 ∧ i = 0 ∨ categoryAt? tokens i = some .startLevel ∨
        categoryAt? tokens i = some .operator)

/-- An operator that waits for its operand stands at its place and is bound, and the frame below
it is empty only if nothing stands in front of that place in the same build. -/
def Frame.Placed (v : Vocabulary) (tokens : List Token) (f below : Frame) : Prop :=
  ∀ b i, f.scope = .operand b i → tokens[i]? = some ⟨b.token, .operator⟩ ∧
    v.operators.find? b.token = some b ∧ (below.pending = [] → OpensBuild (tokens.take i))

section Places
variable {v : Vocabulary} {ts tokens : List Token} {f f' g : Frame} {below : List Frame}

theorem Frame.Placed.append (h : f.Placed v ts g) (us : List Token) : f.Placed v (ts ++ us) g := by
  intro b i hscope
  obtain ⟨hat, hfind, hleft⟩ := h b i hscope
  obtain ⟨hi, _⟩ := List.getElem?_eq_some_iff.mp hat
  rw [List.getElem?_append_left hi, List.take_append_of_le_length (Nat.le_of_lt hi)]
  exact ⟨hat, hfind, hleft⟩

theorem Frame.placed_of_scope_eq (hscope : f'.scope = f.scope)
    (h : (f :: below).IsChain (Frame.Placed v tokens)) :
    (f' :: below).IsChain (Frame.Placed v tokens) := by
  cases below with
  | nil => exact .singleton f'
  | cons g below =>
    rw [List.isChain_cons_cons] at h ⊢
    refine ⟨?_, h.2⟩
    intro b i hoperand
    exact h.1 b i (hscope ▸ hoperand)

/-- Nothing stands in front of a place in its build if it is the first place or directly behind
what opens a build. -/
theorem OpensBuild.categoryAt? {i : Nat} (hi : i < tokens.length) (h : OpensBuild (tokens.take i)) :
    i = 0 ∨ categoryAt? tokens (i - 1) = some .startLevel ∨
      categoryAt? tokens (i - 1) = some .operator := by
  cases i with
  | zero => exact Or.inl rfl
  | succ i =>
    have hlt : i < tokens.length := Nat.lt_of_succ_lt hi
    rw [List.take_succ_eq_append_getElem hlt, opensBuild_concat] at h
    right
    simpa [CertPolicy.categoryAt?, List.getElem?_eq_getElem hlt] using h

/-- An empty frame below a binary operator is what an error for its left side reports. -/
theorem Frame.Placed.applies {o : Options} {b : Binding} {i : Nat} (h : f.Placed v tokens g)
    (hscope : f.scope = .operand b i) (harity : b.arity = .binary) (hempty : g.pending = []) :
    (GrammarError.tooFewOperands b.token i).Applies v o tokens := by
  obtain ⟨hat, hfind, hleft⟩ := h b i hscope
  obtain ⟨hi, _⟩ := List.getElem?_eq_some_iff.mp hat
  exact ⟨hat, ⟨b, hfind, harity⟩, (hleft hempty).categoryAt? hi⟩

end Places

namespace Machine
variable {v : Vocabulary} {o : Options} {index : Nat} {t : Token} {ts tokens : List Token}
variable {m m' : Machine}

theorem Step.placed (hread : start.read v o 0 ts = .ok m) (hstep : Step v o ts.length t m m')
    (h : (m.top :: m.below).IsChain (Frame.Placed v ts)) :
    (m'.top :: m'.below).IsChain (Frame.Placed v (ts ++ [t])) := by
  replace h : (m.top :: m.below).IsChain (Frame.Placed v (ts ++ [t])) :=
    h.imp fun _ _ hplaced => hplaced.append [t]
  cases hstep with
  | startLevel => exact h.cons_cons nofun
  | @operator b ht hb =>
    refine h.cons_cons ?_
    rintro _ _ ⟨⟩
    have htoken := OperatorTable.token_of_find? hb
    have hself : t = ⟨b.token, .operator⟩ := by rw [htoken, ← ht]
    refine ⟨?_, htoken ▸ hb, ?_⟩
    · rw [← hself]
      simp
    · rw [List.take_left]
      exact (pending_eq_nil_iff hread).mp
  | endLevel _ hbelow _ _ hclose =>
    rw [hbelow] at h
    exact Frame.placed_of_scope_eq (scope_of_close hclose) h.tail
  | literal | reference => exact Frame.placed_of_scope_eq (f := m.top) rfl h

theorem placed_of_read (hread : start.read v o 0 tokens = .ok m) :
    (m.top :: m.below).IsChain (Frame.Placed v tokens) := by
  induction tokens using List.reverseRecOn generalizing m with
  | nil =>
    cases hread
    exact .singleton _
  | append_singleton ts t ih =>
    obtain ⟨n, hread, hstep⟩ := read_concat_eq_ok_iff.mp hread
    rw [Nat.zero_add] at hstep
    exact hstep.placed hread (ih hread)

/-- A build that has collected nothing was opened by the last token. -/
theorem exists_opener_of_read (hread : start.read v o 0 tokens = .ok m)
    (hpending : m.top.pending = []) (hbelow : m.below ≠ []) :
    ∃ ts t n, tokens = ts ++ [t] ∧ start.read v o 0 ts = .ok n ∧ m.below = n.top :: n.below ∧
      (t.category = .startLevel ∧ m.top.scope = .level ∨
        t.category = .operator ∧ ∃ b, v.operators.find? t.text = some b ∧
          m.top.scope = .operand b ts.length) := by
  rcases List.eq_nil_or_concat tokens with rfl | ⟨ts, t, rfl⟩
  · cases hread
    exact absurd rfl hbelow
  · rw [List.concat_eq_append] at hread ⊢
    obtain ⟨n, hread, hstep⟩ := read_concat_eq_ok_iff.mp hread
    rw [Nat.zero_add] at hstep
    refine ⟨ts, t, n, rfl, hread, ?_⟩
    cases hstep with
    | startLevel ht => exact ⟨rfl, Or.inl ⟨ht, rfl⟩⟩
    | operator ht hb => exact ⟨rfl, Or.inr ⟨ht, _, hb, rfl⟩⟩
    | endLevel _ _ _ hne hclose => exact absurd hpending (ne_nil_of_close hclose hne)
    | literal | reference => simp [collect] at hpending

/-- If nothing has been collected for an operator, only opened levels stand behind it. -/
theorem startLevel_of_read {above below : List Frame} {f g : Frame} {b : Binding} {i : Nat}
    (hread : start.read v o 0 tokens = .ok m)
    (hstack : m.top :: m.below = above ++ f :: g :: below)
    (habove : ∀ a ∈ above, a.pending = [] ∧ a.scope.binding? = none)
    (hscope : f.scope = .operand b i) (hpending : f.pending = []) :
    ∀ t ∈ tokens.drop (i + 1), t.category = .startLevel := by
  induction above generalizing tokens m with
  | nil =>
    obtain ⟨rfl, hbelow⟩ := List.cons.inj hstack
    obtain ⟨ts, t, n, rfl, _, _, hopener⟩ := exists_opener_of_read hread hpending (by simp [hbelow])
    rw [hscope] at hopener
    rcases hopener with ⟨_, hlevel⟩ | ⟨_, _, _, hoperand⟩
    · cases hlevel
    · cases hoperand
      simp
  | cons a above ih =>
    obtain ⟨rfl, hbelow⟩ := List.cons.inj hstack
    obtain ⟨⟨hempty, hnone⟩, habove⟩ := List.forall_mem_cons.mp habove
    obtain ⟨ts, t, n, rfl, hread, hn, hopener⟩ :=
      exists_opener_of_read hread hempty (by simp [hbelow])
    rcases hopener with ⟨ht, _⟩ | ⟨_, _, _, hoperand⟩
    · have hrest := ih hread (hn ▸ hbelow) habove
      intro u hu
      rw [List.drop_append] at hu
      rcases List.mem_append.mp hu with hu | hu
      · exact hrest u hu
      · rw [List.mem_singleton.mp (List.mem_of_mem_drop hu), ht]
    · rw [hoperand] at hnone
      cases hnone

/-- A token that cannot be read is not what the grammar needs there, and the error says so. -/
theorem applies_of_step {rest : List Token} {cause : GrammarError}
    (hread : start.read v o 0 ts = .ok m)
    (h : StepFails v o ts.length t m (.grammar cause)) : cause.Applies v o (ts ++ t :: rest) := by
  cases h with
  | depth ht => exact ⟨rfl, by rw [categoryAt?_length, ht]⟩
  | builds ht =>
    refine ⟨rfl, Or.inr ?_⟩
    rw [categoryAt?_length]
    exact ht.imp (congrArg some) (congrArg some)
  | stray ht hdepth =>
    have hlevels := depth_of_read hread
    have hbuilds := length_below_of_read hread
    refine ⟨by rw [categoryAt?_length, ht], ?_⟩
    rw [List.take_left]
    rcases hdepth with hbelow | hdepth
    · rw [hbelow, List.length_nil] at hbuilds
      omega
    · omega
  | level ht hbelow hpending hscope =>
    obtain ⟨us, u, n, rfl, _, _, hopener⟩ := exists_opener_of_read hread hpending hbelow
    rcases hopener with ⟨hu, _⟩ | ⟨_, _, _, hoperand⟩
    · refine ⟨by rw [categoryAt?_length, ht], by simp, ?_⟩
      rw [List.length_append, List.length_singleton, Nat.add_sub_cancel, List.append_assoc,
        List.singleton_append, categoryAt?_length, hu]
    · rw [hoperand] at hscope
      cases hscope
  | operand ht hbelow hpending hscope =>
    obtain ⟨us, u, n, rfl, _, hn, hopener⟩ := exists_opener_of_read hread hpending hbelow
    have hplaced := placed_of_read hread
    rw [hn, List.isChain_cons_cons] at hplaced
    obtain ⟨hat, _⟩ := hplaced.1.append (t :: rest) _ _ hscope
    refine ⟨hat, Or.inl ?_⟩
    rw [hscope] at hopener
    rcases hopener with ⟨_, hlevel⟩ | ⟨_, _, _, hoperand⟩
    · cases hlevel
    · cases hoperand
      have hlength : us.length + 1 = (us ++ [u]).length := by simp
      rw [hlength, categoryAt?_length, ht]
  | @close f below _ ht hbelow hpending hclose =>
    cases hclose with
    | siblings hreject hcount =>
      exact ⟨hreject, hcount, Or.inr (by rw [categoryAt?_length, ht])⟩
    | operand _ hempty => exact absurd hempty hpending
    | left hscope _ harity hempty =>
      have hplaced := placed_of_read hread
      rw [hbelow, List.isChain_cons_cons] at hplaced
      exact (hplaced.1.append (t :: rest)).applies hscope harity hempty
  | unbound hunbound => cases hunbound

/-- An error at the end of the policy says what is missing there, or in front of an operator whose
operand has been read up to the end. -/
theorem applies_of_finish {cause : GrammarError} (hread : start.read v o 0 tokens = .ok m)
    (h : FinishFails o tokens.length m (.grammar cause)) : cause.Applies v o tokens := by
  have hplaced := placed_of_read hread
  cases h with
  | unwind hunwind =>
    cases hunwind with
    | siblings hreject hcount => exact ⟨hreject, hcount, Or.inl rfl⟩
    | @operand above below f g b i hstack habove hscope hpending =>
      have hpair : [f, g] <:+: m.top :: m.below := ⟨above, below, by simp [hstack]⟩
      have hfg := hplaced.infix hpair
      rw [List.isChain_pair] at hfg
      exact ⟨(hfg b i hscope).1, Or.inr (startLevel_of_read hread hstack habove hscope hpending)⟩
    | left hpair hscope harity hempty =>
      have hfg := hplaced.infix hpair
      rw [List.isChain_pair] at hfg
      exact hfg.applies hscope harity hempty
  | levels hrequired hdepth =>
    have hlevels := depth_of_read hread
    exact ⟨hrequired, hdepth, by omega⟩

end Machine

/-- What an error says of the tokens is so, wherever in the tokens it was found. -/
theorem applies_of_build {v : Vocabulary} {o : Options} {tokens : List Token} {cause : GrammarError}
    (h : Expr.build v o tokens = .error (.grammar cause)) : cause.Applies v o tokens := by
  cases Expr.build_eq_error_iff.mp h with
  | root hroom => exact ⟨rfl, Or.inl ⟨Nat.lt_one_iff.mp hroom, rfl⟩⟩
  | token _ htokens hread hstep =>
    rw [htokens]
    exact Machine.applies_of_step hread (Machine.stepFails_of_step hstep)
  | finish _ hread hfinish =>
    exact Machine.applies_of_finish hread (Machine.finishFails_of_finish hfinish)

/-- The first error is found three tokens behind the operator, when its operand has been read. The
second one blames the inner of two operators that have no operand. -/
theorem applies_of_build_operators :
    (GrammarError.tooFewOperands "=" 1).Applies .standard .strict [⟨"(", .startLevel⟩,
        ⟨"=", .operator⟩, ⟨"!", .operator⟩, ⟨"a", .literal⟩, ⟨")", .endLevel⟩] ∧
      (GrammarError.missingOperand "!" 3).Applies .standard .strict [⟨"a", .literal⟩,
        ⟨"=", .operator⟩, ⟨"(", .startLevel⟩, ⟨"!", .operator⟩, ⟨"(", .startLevel⟩] := by
  constructor
  · exact applies_of_build (by decide +kernel)
  · exact applies_of_build (by decide +kernel)

/-- The error is found at a token that the tokens hold, so it does not depend on what follows. -/
def BuildError.Settled (tokens : List Token) : BuildError → Prop
  | .grammar (.unjoinedSiblings _ i) => i < tokens.length
  | .grammar (.missingOperand _ i) => categoryAt? tokens (i + 1) = some .endLevel
  | .grammar (.tooFewOperands ..) | .grammar (.unclosedLevels _) => False
  | .grammar (.strayEndLevel _) | .grammar (.emptyLevel _) | .grammar (.nestingTooDeep ..)
  | .grammar (.buildsTooDeep ..) | .resolution _ | .unknownOperator _ => True

theorem Machine.not_settled_of_finish {v : Vocabulary} {o : Options} {tokens : List Token}
    {m : Machine} {e : BuildError} (hread : start.read v o 0 tokens = .ok m)
    (h : FinishFails o tokens.length m e) : ¬ e.Settled tokens := by
  intro hsettled
  cases h with
  | unwind hunwind =>
    cases hunwind with
    | siblings => exact Nat.lt_irrefl _ hsettled
    | @operand _ _ _ _ _ i hstack habove hscope hpending =>
      have hlevels := startLevel_of_read hread hstack habove hscope hpending
      obtain ⟨t, ht, hend⟩ := Option.map_eq_some_iff.mp hsettled
      have hmem : t ∈ tokens.drop (i + 1) :=
        List.mem_of_getElem? (i := 0) (by rwa [List.getElem?_drop])
      have hstart := hlevels t hmem
      rw [hend] at hstart
      cases hstart
    | left => exact hsettled
  | levels => exact hsettled

/-- An error found at a token is the error of all longer token sequences. -/
theorem build_append_of_settled {v : Vocabulary} {o : Options} {ts : List Token} {e : BuildError}
    (h : Expr.build v o ts = .error e) (hsettled : e.Settled ts) (us : List Token) :
    Expr.build v o (ts ++ us) = .error e := by
  apply Expr.build_eq_error_iff.mpr
  cases Expr.build_eq_error_iff.mp h with
  | root hroom => exact .root hroom
  | token hroom htokens hread hstep =>
    exact .token hroom (by rw [htokens, List.append_assoc, List.cons_append]) hread hstep
  | finish _ hread hfinish =>
    have hfails := Machine.finishFails_of_finish hfinish
    exact absurd hsettled (Machine.not_settled_of_finish hread hfails)

/-- No token behind the parenthesis supplies the operand that it cuts off. -/
theorem build_append_missing_operand :
    (BuildError.grammar (.missingOperand "=" 2)).Settled [⟨"(", .startLevel⟩, ⟨"a", .literal⟩,
        ⟨"=", .operator⟩, ⟨")", .endLevel⟩] ∧
      Expr.build .standard .strict [⟨"(", .startLevel⟩, ⟨"a", .literal⟩, ⟨"=", .operator⟩,
        ⟨")", .endLevel⟩, ⟨"b", .literal⟩] = .error (.grammar (.missingOperand "=" 2)) := by
  have hsettled : (BuildError.grammar (.missingOperand "=" 2)).Settled [⟨"(", .startLevel⟩,
      ⟨"a", .literal⟩, ⟨"=", .operator⟩, ⟨")", .endLevel⟩] := rfl
  exact ⟨hsettled, build_append_of_settled (by decide +kernel) hsettled [⟨"b", .literal⟩]⟩

end CertPolicy
