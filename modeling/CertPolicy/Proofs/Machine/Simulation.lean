import CertPolicy.Expr.Build
import CertPolicy.Expr.Machine
import CertPolicy.Proofs.Grammar

/-!
# The stack behind recursive descent

The frames below the top of a machine are the builds that wait for a nested one. A machine that
reads the rest of a policy therefore does what the innermost build does, and then what its
result makes the waiting builds do (`Machine.run_eq_buildFrom`), and the two ways of reading have
the same outcome, errors included. `Expr.build_eq_ok_iff` is what other modules use of this: a
policy is accepted by recursive descent exactly when the machine reads and ends it.
-/

namespace CertPolicy
set_option autoImplicit false

/-- A nested build that used up the tokens leaves none for the build around it. -/
theorem Built.rest_eq_nil_or {rest : List Token} {inner : Built rest} {last : Built inner.rest}
    {builds : Nat} (hinner : inner.rest = [] ∨ inner.depth + 1 < builds + 1)
    (hlast : inner.depth < builds → last.rest = [] ∨ last.depth + 1 < builds) :
    last.rest = [] ∨ last.depth + 1 < builds := by
  rcases hinner with hnil | hlt
  · have hle : last.rest.length ≤ inner.rest.length := last.length_le
    simp only [hnil, List.length_nil] at hle
    exact Or.inl (List.eq_nil_of_length_eq_zero (Nat.le_zero.mp hle))
  · exact hlast (Nat.lt_of_succ_lt_succ hlt)

/-- A build that stops in front of further tokens has closed a level. If fewer levels than
builds were open in it, the same holds of the build that it returns to. -/
theorem Expr.depth_of_buildFrom {v : Vocabulary} {o : Options} {scope : Scope}
    {builds index depth : Nat} {pending : List Expr} {tokens : List Token} {b : Built tokens}
    (h : buildFrom v o scope builds pending index depth tokens = .ok b) (hd : depth < builds) :
    b.rest = [] ∨ b.depth + 1 < builds := by
  induction scope, builds, pending, index, depth, tokens using buildFrom.induct v o with
  | case1 scope builds pending index depth =>
    rw [buildFrom] at h
    obtain ⟨value, _, h⟩ := bind_eq_ok_iff.mp h
    obtain rfl := Except.ok.inj h
    exact Or.inl rfl
  | case3 scope builds pending index depth t rest ht hdeep hmany =>
    simp [buildFrom, ht, hdeep, hmany] at h
  | case4 scope builds pending index depth t rest ht hdeep hmany ih ihlast =>
    simp only [buildFrom, ht, if_neg hdeep, if_neg hmany] at h
    obtain ⟨inner, hinner, h⟩ := bind_eq_ok_iff.mp h
    obtain ⟨last, hlast, h⟩ := bind_eq_ok_iff.mp h
    obtain rfl := Except.ok.inj h
    exact Built.rest_eq_nil_or (ih hinner (Nat.succ_lt_succ hd)) (ihlast inner hlast)
  | case7 scope builds pending index depth t rest ht hdepth hpending =>
    simp only [buildFrom, ht, if_neg hdepth, if_neg hpending] at h
    obtain ⟨value, _, h⟩ := bind_eq_ok_iff.mp h
    obtain rfl := Except.ok.inj h
    exact Or.inr (by simp only; omega)
  | case10 scope builds pending index depth t rest ht b hb hmany ih ihlast =>
    simp only [buildFrom, ht, hb, if_neg hmany] at h
    obtain ⟨inner, hinner, h⟩ := bind_eq_ok_iff.mp h
    obtain ⟨joined, _, h⟩ := bind_eq_ok_iff.mp h
    obtain ⟨last, hlast, h⟩ := bind_eq_ok_iff.mp h
    obtain rfl := Except.ok.inj h
    exact Built.rest_eq_nil_or (ih hinner (Nat.lt_succ_of_lt hd)) (ihlast inner joined hlast)
  | case11 scope builds pending index depth t rest ht ih =>
    simp only [buildFrom, ht] at h
    obtain ⟨last, hlast, h⟩ := bind_eq_ok_iff.mp h
    obtain rfl := Except.ok.inj h
    exact ih hlast hd
  | case13 scope builds pending index depth t rest ht f hf ih =>
    simp only [buildFrom, ht, hf] at h
    obtain ⟨last, hlast, h⟩ := bind_eq_ok_iff.mp h
    obtain rfl := Except.ok.inj h
    exact ih hlast hd
  | _ => simp_all [buildFrom]

namespace Machine

def run (v : Vocabulary) (o : Options) (index : Nat) (m : Machine) (tokens : List Token) :
    Except BuildError (Option Expr) := do
  let m ← m.read v o index tokens
  m.finish o (index + tokens.length)

/-- Goes on behind the end of a build, with the builds that wait for it. -/
def resume (v : Vocabulary) (o : Options) (scope : Scope) {tokens : List Token} :
    List Frame → Built tokens → Except BuildError (Option Expr)
  | [], b =>
    if o.requireBalanced && decide (0 < b.depth) then
      .error (.grammar (.unclosedLevels b.depth))
    else .ok b.value
  | f :: below, b => do
    let pending ← scope.deliver f.pending b.value
    run v o b.index ⟨{ f with pending := pending }, below, b.depth⟩ b.rest

variable {v : Vocabulary} {o : Options} {index depth : Nat} {m : Machine}

theorem run_nil : m.run v o index [] = m.finish o index := rfl

theorem run_cons (t : Token) (rest : List Token) :
    m.run v o index (t :: rest) = m.step v o index t >>= fun m => m.run v o (index + 1) rest := by
  rw [run, read]
  cases m.step v o index t with
  | error e => rfl
  | ok m =>
    simp only [run, List.length_cons, Nat.add_assoc, Nat.add_comm 1]
    rfl

theorem resume_within {scope : Scope} {below : List Frame} {rest tokens : List Token}
    (b : Built rest) (h : rest.length ≤ tokens.length) :
    resume v o scope below (b.within h) = resume v o scope below b := by
  cases below <;> rfl

/-- A machine does what its innermost build does, and then goes on with the builds below. -/
theorem run_eq_buildFrom {scope : Scope} {builds : Nat} {pending : List Expr}
    {below : List Frame} {tokens : List Token} (hb : builds = below.length + 1)
    (hd : tokens = [] ∨ depth ≤ below.length) :
    run v o index ⟨⟨scope, pending⟩, below, depth⟩ tokens =
      Expr.buildFrom v o scope builds pending index depth tokens >>= resume v o scope below := by
  induction scope, builds, pending, index, depth, tokens using Expr.buildFrom.induct v o
    generalizing below with
  | case1 scope builds pending index depth =>
    cases below with
    | nil =>
      simp only [run_nil, finish, unwind, Expr.buildFrom]
      cases o.siblings.reduce pending index <;> rfl
    | cons f below =>
      simp only [run_nil, finish, unwind, close, Expr.buildFrom]
      cases o.siblings.reduce pending index with
      | error e => rfl
      | ok value =>
        simp only [ok_bind, pure_eq_ok, resume, run_nil, finish]
        cases scope.deliver f.pending value <;> rfl
  | case2 scope builds pending index depth t rest ht hdeep =>
    simp [run_cons, step, Expr.buildFrom, ht, hdeep]
  | case3 scope builds pending index depth t rest ht hdeep hmany =>
    simp [run_cons, step, enter, Machine.builds, Expr.buildFrom, ht, hdeep, ← hb, hmany]
  | case4 scope builds pending index depth t rest ht hdeep hmany ih ihlast =>
    have hd : depth < builds := by simp at hd; omega
    simp only [run_cons, step, enter, Machine.builds, Expr.buildFrom, ht, hdeep, ← hb, hmany,
      if_false, ok_bind]
    rw [@ih (⟨scope, pending⟩ :: below) (by simp [hb]) (Or.inr (by simp; omega))]
    cases hin : Expr.buildFrom v o .level (builds + 1) [] (index + 1) (depth + 1) rest with
    | error e => rfl
    | ok b =>
      have hb' := Expr.depth_of_buildFrom hin (Nat.succ_lt_succ hd)
      simp only [ok_bind, resume, Scope.deliver]
      rw [ihlast b hb (hb'.imp_right fun h => by omega)]
      cases Expr.buildFrom v o scope builds (pending ++ b.value.toList) b.index b.depth b.rest with
      | error e => rfl
      | ok last => exact (resume_within last _).symm
  | case5 scope builds pending index t rest ht =>
    cases below <;> simp [run_cons, step, Expr.buildFrom, ht]
  | case6 scope builds pending index depth t rest ht hdepth hpending =>
    cases below with
    | nil => simp at hd; omega
    | cons f below => simp [run_cons, step, Expr.buildFrom, ht, hdepth, hpending]
  | case7 scope builds pending index depth t rest ht hdepth hpending =>
    cases below with
    | nil => simp at hd; omega
    | cons f below =>
      simp only [run_cons, step, close, Expr.buildFrom, ht, if_neg hdepth, if_neg hpending]
      cases o.siblings.reduce pending index with
      | error e => rfl
      | ok value =>
        simp only [ok_bind, pure_eq_ok, resume]
        cases scope.deliver f.pending value <;> rfl
  | case8 scope builds pending index depth t rest ht hnone =>
    simp [run_cons, step, Expr.buildFrom, ht, hnone]
  | case9 scope builds pending index depth t rest ht b hfind hmany =>
    simp [run_cons, step, enter, Machine.builds, Expr.buildFrom, ht, hfind, ← hb, hmany]
  | case10 scope builds pending index depth t rest ht operator hfind hmany ih ihlast =>
    have hd : depth < builds := by simp at hd; omega
    simp only [run_cons, step, enter, Machine.builds, Expr.buildFrom, ht, hfind, ← hb, hmany,
      if_false, ok_bind]
    rw [@ih (⟨scope, pending⟩ :: below) (by simp [hb]) (Or.inr (by simp; omega))]
    cases hin : Expr.buildFrom v o (.operand operator index) (builds + 1) [] (index + 1) depth
      rest with
    | error e => rfl
    | ok b =>
      have hb' := Expr.depth_of_buildFrom hin (Nat.lt_succ_of_lt hd)
      simp only [ok_bind, resume, Scope.deliver]
      cases operator.apply index pending b.value with
      | error e => rfl
      | ok joined =>
        simp only [ok_bind]
        rw [ihlast b joined hb (hb'.imp_right fun h => by omega)]
        cases Expr.buildFrom v o scope builds joined b.index b.depth b.rest with
        | error e => rfl
        | ok last => exact (resume_within last _).symm
  | case11 scope builds pending index depth t rest ht ih =>
    have hd : depth ≤ below.length := by simpa using hd
    simp only [run_cons, step, collect, Expr.buildFrom, ht, ok_bind]
    rw [ih hb (Or.inr hd)]
    cases Expr.buildFrom v o scope builds (pending ++ [.literal t.text]) (index + 1) depth
      rest with
    | error e => rfl
    | ok last => exact (resume_within last _).symm
  | case12 scope builds pending index depth t rest ht cause hcause =>
    simp [run_cons, step, Expr.buildFrom, ht, hcause]
  | case13 scope builds pending index depth t rest ht f hf ih =>
    have hd : depth ≤ below.length := by simpa using hd
    simp only [run_cons, step, collect, Expr.buildFrom, ht, hf, ok_bind]
    rw [ih hb (Or.inr hd)]
    cases Expr.buildFrom v o scope builds (pending ++ [.field f]) (index + 1) depth rest with
    | error e => rfl
    | ok last => exact (resume_within last _).symm

end Machine

/-- With room for the first build, recursive descent and the machine have the same outcome. -/
theorem Expr.build_eq_run {v : Vocabulary} {o : Options} (h : 1 ≤ o.maxRecursion)
    (tokens : List Token) : build v o tokens = Machine.start.run v o 0 tokens := by
  have hrun : Machine.run v o 0 ⟨⟨.root, []⟩, [], 0⟩ tokens = _ :=
    Machine.run_eq_buildFrom rfl (Or.inr (Nat.zero_le 0))
  rw [build, if_neg (Nat.not_lt.mpr h)]
  exact hrun.symm

/-- Recursive descent and the stack machine read every token sequence alike, to the same policy
or to the same error. -/
theorem Expr.build_eq_machine_build (v : Vocabulary) (o : Options) (tokens : List Token) :
    build v o tokens = Machine.build v o tokens := by
  rw [Machine.build]
  split
  · rename_i h
    rw [build, if_pos h]
  · rename_i h
    rw [build_eq_run (Nat.le_of_not_lt h), Machine.run, Nat.zero_add]

theorem Expr.build_eq_ok_iff {v : Vocabulary} {o : Options} {tokens : List Token}
    {value : Option Expr} :
    build v o tokens = .ok value ↔ 1 ≤ o.maxRecursion ∧ ∃ m,
      Machine.start.read v o 0 tokens = .ok m ∧ m.finish o tokens.length = .ok value := by
  by_cases h : 1 ≤ o.maxRecursion
  · rw [build_eq_run h, Machine.run, bind_eq_ok_iff]
    simp [h]
  · have hlt : o.maxRecursion < 1 := Nat.lt_of_not_le h
    rw [build, if_pos hlt]
    simp [h]

end CertPolicy
