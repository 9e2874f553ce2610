import Mathlib.Data.List.Induction
import CertPolicy.Proofs.Machine.Step

/-!
# What the tokens read tell about the stack

The number of open levels and of open builds is a matter of counting tokens. Whether the
innermost build has collected anything depends on the last token only.
-/

namespace CertPolicy
set_option autoImplicit false

def Category.count (c : Category) (tokens : List Token) : Nat :=
  tokens.countP (·.category = c)

namespace Category

@[simp] theorem count_nil (c : Category) : c.count [] = 0 := rfl

@[simp] theorem count_append (c : Category) (ts us : List Token) :
    c.count (ts ++ us) = c.count ts + c.count us :=
  List.countP_append

theorem count_cons (c : Category) (t : Token) (ts : List Token) :
    c.count (t :: ts) = c.count [t] + c.count ts :=
  count_append c [t] ts

@[simp] theorem count_singleton (c : Category) (t : Token) :
    c.count [t] = if t.category = c then 1 else 0 := by
  simp [count, List.countP_cons]

end Category

/-- The limits hold behind every prefix of the tokens if `depth` levels and `builds` builds are
open in front of them. -/
def Options.Within (o : Options) (depth builds : Nat) (tokens : List Token) : Prop :=
  ∀ ts, ts <+: tokens →
    depth + Category.startLevel.count ts ≤ o.maxDepth + Category.endLevel.count ts ∧
    builds + Category.startLevel.count ts + Category.operator.count ts ≤
      o.maxRecursion + Category.endLevel.count ts

/-- Nothing can have been collected behind these tokens: there are none, or the last one opens
a build. -/
def OpensBuild (tokens : List Token) : Prop :=
  ∀ t ∈ tokens.getLast?, t.category = .startLevel ∨ t.category = .operator

@[simp] theorem opensBuild_nil : OpensBuild [] := by simp [OpensBuild]

@[simp] theorem opensBuild_concat (ts : List Token) (t : Token) :
    OpensBuild (ts ++ [t]) ↔ t.category = .startLevel ∨ t.category = .operator := by
  simp [OpensBuild]

/-- What opened the builds that are open behind these tokens, the last one first. A closing
parenthesis ends the last of them, be it a level or an operand. -/
def openBuilds (tokens : List Token) : List Category :=
  tokens.foldl (fun opened t =>
    match t.category with
    | .startLevel | .operator => t.category :: opened
    | .endLevel => opened.tail
    | .literal | .reference => opened) []

theorem openBuilds_concat (ts : List Token) (t : Token) :
    openBuilds (ts ++ [t]) =
      match t.category with
      | .startLevel | .operator => t.category :: openBuilds ts
      | .endLevel => (openBuilds ts).tail
      | .literal | .reference => openBuilds ts := by
  simp only [openBuilds, List.foldl_append, List.foldl_cons, List.foldl_nil]

/-- What opens a build; the whole policy counts as a level. -/
def Scope.opener : Scope → Category
  | .root | .level => .startLevel
  | .operand .. => .operator

theorem Scope.binding?_eq_none_iff {scope : Scope} :
    scope.binding? = none ↔ scope.opener = .startLevel := by
  cases scope <;> simp [binding?, opener]

namespace Machine
variable {v : Vocabulary} {o : Options} {index : Nat} {t : Token} {m m' : Machine}

def openers (top : Frame) (below : List Frame) : List Category :=
  (top :: below).map (·.scope.opener)

theorem Step.depth_add (h : Step v o index t m m') :
    m'.depth + Category.endLevel.count [t] = m.depth + Category.startLevel.count [t] := by
  cases h with
  | endLevel ht _ hdepth =>
    simp [ht]
    omega
  | _ => simp_all [collect]

theorem Step.length_below_add (h : Step v o index t m m') :
    m'.below.length + Category.endLevel.count [t] =
      m.below.length + Category.startLevel.count [t] + Category.operator.count [t] := by
  cases h with
  | endLevel ht hbelow => simp [ht, hbelow]
  | _ => simp_all [collect]

theorem depth_add_of_read {tokens : List Token} (h : m.read v o index tokens = .ok m') :
    m'.depth + Category.endLevel.count tokens = m.depth + Category.startLevel.count tokens := by
  induction tokens generalizing m index with
  | nil =>
    cases h
    rfl
  | cons t rest ih =>
    obtain ⟨n, hn, h⟩ := read_cons_eq_ok_iff.mp h
    have hstep := hn.depth_add
    have hrest := ih h
    rw [Category.count_cons .endLevel, Category.count_cons .startLevel]
    omega

theorem length_below_add_of_read {tokens : List Token} (h : m.read v o index tokens = .ok m') :
    m'.below.length + Category.endLevel.count tokens =
      m.below.length + Category.startLevel.count tokens + Category.operator.count tokens := by
  induction tokens generalizing m index with
  | nil =>
    cases h
    rfl
  | cons t rest ih =>
    obtain ⟨n, hn, h⟩ := read_cons_eq_ok_iff.mp h
    have hstep := hn.length_below_add
    have hrest := ih h
    rw [Category.count_cons .endLevel, Category.count_cons .startLevel,
      Category.count_cons .operator]
    omega

/-- What has been opened and not been closed is open. -/
theorem depth_of_read {tokens : List Token} (h : start.read v o 0 tokens = .ok m) :
    m.depth + Category.endLevel.count tokens = Category.startLevel.count tokens := by
  simpa [start] using depth_add_of_read h

/-- A closing parenthesis ends a build, be it a level or an operand. -/
theorem length_below_of_read {tokens : List Token} (h : start.read v o 0 tokens = .ok m) :
    m.below.length + Category.endLevel.count tokens =
      Category.startLevel.count tokens + Category.operator.count tokens := by
  simpa [start] using length_below_add_of_read h

theorem Step.le_limits (h : Step v o index t m m')
    (hm : m.depth ≤ o.maxDepth ∧ m.builds ≤ o.maxRecursion) :
    m'.depth ≤ o.maxDepth ∧ m'.builds ≤ o.maxRecursion := by
  cases h with
  | startLevel _ hdepth hbuilds => exact ⟨hdepth, hbuilds⟩
  | endLevel _ hbelow =>
    simp only [builds, hbelow, List.length_cons] at hm ⊢
    omega
  | operator _ _ hbuilds => exact ⟨hm.1, hbuilds⟩
  | literal | reference => exact hm

theorem le_limits_of_read {tokens : List Token} (h : m.read v o index tokens = .ok m')
    (hm : m.depth ≤ o.maxDepth ∧ m.builds ≤ o.maxRecursion) :
    m'.depth ≤ o.maxDepth ∧ m'.builds ≤ o.maxRecursion := by
  induction tokens generalizing m index with
  | nil =>
    cases h
    exact hm
  | cons t rest ih =>
    obtain ⟨n, hstep, h⟩ := read_cons_eq_ok_iff.mp h
    exact ih h (hstep.le_limits hm)

/-- Tokens that are read keep to the limits. -/
theorem within_of_read {tokens : List Token} (hroom : 1 ≤ o.maxRecursion)
    (h : start.read v o 0 tokens = .ok m) : o.Within 0 1 tokens := by
  rintro ts ⟨us, rfl⟩
  rw [read_append] at h
  obtain ⟨n, hread, _⟩ := bind_eq_ok_iff.mp h
  have hlimits := le_limits_of_read hread ⟨Nat.zero_le _, hroom⟩
  have hdepth := depth_of_read hread
  have hlength := length_below_of_read hread
  rw [builds] at hlimits
  omega

theorem openers_of_close {f below f' : Frame} (h : close o index f below = .ok f')
    (bottom : List Frame) : openers f' bottom = openers below bottom := by
  simp only [openers, List.map_cons, scope_of_close h]

theorem openers_of_read {tokens : List Token} (h : start.read v o 0 tokens = .ok m) :
    openers m.top m.below = openBuilds tokens ++ [.startLevel] := by
  induction tokens using List.reverseRecOn generalizing m with
  | nil =>
    cases h
    rfl
  | append_singleton ts t ih =>
    obtain ⟨n, hread, hstep⟩ := read_concat_eq_ok_iff.mp h
    have hopeners := ih hread
    rw [openBuilds_concat]
    cases hstep with
    | startLevel ht => simpa [openers, ht, Scope.opener] using hopeners
    | operator ht => simpa [openers, ht, Scope.opener] using hopeners
    | endLevel ht hbelow _ _ hclose =>
      cases hopened : openBuilds ts with
      | nil => simp [openers, hbelow, hopened] at hopeners
      | cons c cs =>
        simp only [openers, hbelow, hopened, List.map_cons, List.cons_append,
          List.cons.injEq] at hopeners
        simpa [openers, ht, scope_of_close hclose] using hopeners.2
    | literal ht | reference ht => simpa [openers, ht, collect] using hopeners

/-- The innermost build has collected nothing exactly when it has just been opened. -/
theorem pending_eq_nil_iff {tokens : List Token} (h : start.read v o 0 tokens = .ok m) :
    m.top.pending = [] ↔ OpensBuild tokens := by
  induction tokens using List.reverseRecOn generalizing m with
  | nil =>
    cases h
    simp [start]
  | append_singleton ts t _ =>
    obtain ⟨n, _, hstep⟩ := read_concat_eq_ok_iff.mp h
    rw [opensBuild_concat]
    cases hstep with
    | endLevel ht _ _ hpending hclose => simp [ht, ne_nil_of_close hclose hpending]
    | _ => simp_all [collect]

end Machine
end CertPolicy
