import CertPolicy.Expr.Machine
import CertPolicy.Proofs.Grammar

/-!
# What a token does to the machine

`Machine.Step` lists the transitions, one for each category of tokens, with all that has to
hold for each. Invariants of the machine are proved by cases on it.
-/

namespace CertPolicy
set_option autoImplicit false

namespace Machine
variable {v : Vocabulary} {o : Options} {index depth : Nat} {t : Token} {m m' : Machine}

/-- The transition that a token makes when it is read without an error. -/
inductive Step (v : Vocabulary) (o : Options) (index : Nat) (t : Token) (m : Machine) :
    Machine → Prop
  | startLevel (ht : t.category = .startLevel) (hdepth : m.depth + 1 ≤ o.maxDepth)
      (hbuilds : m.builds + 1 ≤ o.maxRecursion) :
      Step v o index t m ⟨⟨.level, []⟩, m.top :: m.below, m.depth + 1⟩
  | endLevel {f top : Frame} {below : List Frame} (ht : t.category = .endLevel)
      (hbelow : m.below = f :: below) (hdepth : m.depth ≠ 0) (hpending : m.top.pending ≠ [])
      (hclose : close o index m.top f = .ok top) :
      Step v o index t m ⟨top, below, m.depth - 1⟩
  | operator {b : Binding} (ht : t.category = .operator)
      (hb : v.operators.find? t.text = some b) (hbuilds : m.builds + 1 ≤ o.maxRecursion) :
      Step v o index t m ⟨⟨.operand b index, []⟩, m.top :: m.below, m.depth⟩
  | literal (ht : t.category = .literal) : Step v o index t m (m.collect (.literal t.text))
  | reference {f : Field} (ht : t.category = .reference)
      (hf : v.fields.resolveRequired t.text = .ok f) : Step v o index t m (m.collect (.field f))

theorem enter_eq_ok_iff {scope : Scope} :
    enter o index scope m = .ok m' ↔
      m.builds + 1 ≤ o.maxRecursion ∧ m' = ⟨⟨scope, []⟩, m.top :: m.below, m.depth⟩ := by
  unfold enter
  split
  · rename_i h
    simp only [reduceCtorEq, false_iff]
    omega
  · rename_i h
    rw [Except.ok.injEq, eq_comm]
    exact (and_iff_right (Nat.not_lt.mp h)).symm

theorem step_eq_ok_iff : m.step v o index t = .ok m' ↔ Step v o index t m m' := by
  constructor
  · intro h
    unfold step at h
    cases ht : t.category with
    | startLevel =>
      simp only [ht] at h
      split at h
      · cases h
      · rename_i hdepth
        obtain ⟨hbuilds, rfl⟩ := enter_eq_ok_iff.mp h
        exact .startLevel ht (Nat.not_lt.mp hdepth) hbuilds
    | endLevel =>
      simp only [ht] at h
      cases hbelow : m.below with
      | nil => simp [hbelow] at h
      | cons f below =>
        simp only [hbelow] at h
        split at h
        · cases h
        · split at h
          · cases h
          · rename_i hdepth hpending
            obtain ⟨top, hclose, h⟩ := bind_eq_ok_iff.mp h
            cases h
            exact .endLevel ht hbelow hdepth (by simpa using hpending) hclose
    | operator =>
      simp only [ht] at h
      cases hb : v.operators.find? t.text with
      | none => simp [hb] at h
      | some b =>
        simp only [hb] at h
        obtain ⟨hbuilds, rfl⟩ := enter_eq_ok_iff.mp h
        exact .operator ht hb hbuilds
    | literal =>
      simp only [ht] at h
      cases h
      exact .literal ht
    | reference =>
      simp only [ht] at h
      cases hf : v.fields.resolveRequired t.text with
      | error cause => simp [hf] at h
      | ok f =>
        simp only [hf] at h
        cases h
        exact .reference ht hf
  · intro h
    cases h with
    | startLevel ht hdepth hbuilds =>
      simp only [step, ht, if_neg (Nat.not_lt.mpr hdepth)]
      exact enter_eq_ok_iff.mpr ⟨hbuilds, rfl⟩
    | endLevel ht hbelow hdepth hpending hclose =>
      simp [step, ht, hbelow, hdepth, hpending, hclose]
    | operator ht hb hbuilds =>
      simp only [step, ht, hb]
      exact enter_eq_ok_iff.mpr ⟨hbuilds, rfl⟩
    | literal ht => simp only [step, ht]
    | reference ht hf => simp only [step, ht, hf]

/-- A frame ends when its expressions reduce to a value that the frame below can take. -/
theorem close_eq_ok_iff {f below f' : Frame} :
    close o index f below = .ok f' ↔
      (o.siblings = .reject → f.pending.length ≤ 1) ∧ ∃ joined,
        f.scope.deliver below.pending f.pending.head? = .ok joined ∧
          f' = { below with pending := joined } := by
  simp only [close, bind_eq_ok_iff, reduce_eq_ok_iff, pure_eq_ok, Except.ok.injEq]
  constructor
  · rintro ⟨_, ⟨hle, rfl⟩, joined, hjoined, rfl⟩
    exact ⟨hle, joined, hjoined, rfl⟩
  · rintro ⟨hle, joined, hjoined, rfl⟩
    exact ⟨_, ⟨hle, rfl⟩, joined, hjoined, rfl⟩

/-- What a value makes of the expressions that wait for it is never nothing. -/
theorem ne_nil_of_close {f below f' : Frame} (h : close o index f below = .ok f')
    (hf : f.pending ≠ []) : f'.pending ≠ [] := by
  obtain ⟨_, joined, hjoined, rfl⟩ := close_eq_ok_iff.mp h
  rw [deliver_eq_ok_iff] at hjoined
  obtain ⟨e, es, he⟩ := List.exists_cons_of_ne_nil hf
  split at hjoined
  · simp [hjoined, he]
  · obtain ⟨_, _, _, rfl⟩ := hjoined
    simp

theorem scope_of_close {f below f' : Frame} (h : close o index f below = .ok f') :
    f'.scope = below.scope := by
  obtain ⟨_, _, _, rfl⟩ := close_eq_ok_iff.mp h
  rfl

/-- A level that has collected nothing leaves the frame below as it is; for an operand that is
an error. -/
theorem close_nil_eq_ok_iff {f g f' : Frame} (hf : f.pending = []) :
    close o index f g = .ok f' ↔ f.scope.binding? = none ∧ f' = g := by
  simp only [close_eq_ok_iff, deliver_eq_ok_iff, hf]
  cases f.scope.binding? <;> simp

/-- An operand makes one operation of itself and of all that the frame below has collected. -/
theorem close_operand {f g : Frame} {b : Binding} {e : Expr} (hscope : f.scope.binding? = some b)
    (hf : f.pending = [e]) (hg : b.minOperands ≤ g.pending.length + 1) :
    close o index f g = .ok { g with pending := [b.combine (g.pending ++ [e])] } := by
  apply close_eq_ok_iff.mpr
  simp [hf, deliver_eq_ok_iff, hscope, hg]

/-- Of the options, only the rule for siblings matters where a frame ends. -/
theorem close_congr {o' : Options} (h : o'.siblings = o.siblings) (f below : Frame) :
    close o' index f below = close o index f below := by
  rw [close, close, h]

theorem unwind_congr {o' : Options} (h : o'.siblings = o.siblings) (top : Frame)
    (below : List Frame) : unwind o' index top below = unwind o index top below := by
  induction below generalizing top with
  | nil => rw [unwind, unwind, h]
  | cons f below ih => simp only [unwind, close_congr h, ih]

theorem finish_eq_ok_iff {value : Option Expr} :
    m.finish o index = .ok value ↔
      unwind o index m.top m.below = .ok value ∧ (o.requireBalanced = true → m.depth = 0) := by
  rw [finish, bind_eq_ok_iff]
  constructor
  · rintro ⟨last, hunwind, h⟩
    split at h
    · cases h
    · rename_i hbalanced
      cases h
      exact ⟨hunwind, by simpa using hbalanced⟩
  · rintro ⟨hunwind, hbalanced⟩
    refine ⟨value, hunwind, ?_⟩
    rw [if_neg (by simpa using hbalanced)]
    rfl

theorem read_cons_eq_ok_iff {rest : List Token} {last : Machine} :
    m.read v o index (t :: rest) = .ok last ↔
      ∃ m', Step v o index t m m' ∧ m'.read v o (index + 1) rest = .ok last := by
  rw [read, bind_eq_ok_iff]
  simp only [step_eq_ok_iff]

theorem read_append (ts us : List Token) :
    m.read v o index (ts ++ us) =
      m.read v o index ts >>= fun m => m.read v o (index + ts.length) us := by
  induction ts generalizing m index with
  | nil => rfl
  | cons t ts ih =>
    simp only [List.cons_append, read, List.length_cons]
    cases m.step v o index t with
    | error e => rfl
    | ok m' =>
      simp only [ok_bind, ih, Nat.add_right_comm index 1, Nat.add_assoc]

theorem read_concat_eq_ok_iff {ts : List Token} {last : Machine} :
    m.read v o index (ts ++ [t]) = .ok last ↔
      ∃ m', m.read v o index ts = .ok m' ∧ Step v o (index + ts.length) t m' last := by
  rw [read_append, bind_eq_ok_iff]
  refine exists_congr fun m' => and_congr_right fun _ => ?_
  rw [read_cons_eq_ok_iff]
  simp only [read, Except.ok.injEq, exists_eq_right]

end Machine
end CertPolicy
