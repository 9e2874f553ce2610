import CertPolicy.Proofs.Machine.Counters

/-!
# Reading inside open builds

Tokens that the machine reads from the start it also reads when other builds are open, if the
limits leave room for it. The frames that wait below are not touched, and the frames above them
differ only in the places of their operators. A closing parenthesis behind the tokens ends the
top frame only; what is then left open ends, at the end of the policy, with the value that the
tokens have by themselves.
-/

namespace CertPolicy
set_option autoImplicit false

/-- A frame but for places: the operator whose operand it reads and what it has collected. -/
def Frame.content (f : Frame) : Option Binding × List Expr :=
  (f.scope.binding?, f.pending)

theorem Frame.content_eq_iff {f g : Frame} :
    f.content = g.content ↔ f.scope.binding? = g.scope.binding? ∧ f.pending = g.pending := by
  rw [content, content, Prod.mk.injEq]

namespace Machine
variable {v : Vocabulary} {o o' : Options} {index : Nat} {t : Token}
variable {tokens : List Token} {m m' n n' : Machine} {base : List Frame} {levels : Nat}

/-- The limits are not reached within the given number of further tokens. -/
def HasRoom (o : Options) (m : Machine) (tokens : Nat) : Prop :=
  m.depth + tokens ≤ o.maxDepth ∧ m.builds + tokens ≤ o.maxRecursion

theorem Step.hasRoom {k : Nat} (h : Step v o' index t m m') (hroom : HasRoom o m (k + 1)) :
    HasRoom o m' k := by
  obtain ⟨hdepth, hbuilds⟩ := hroom
  rw [builds] at hbuilds
  rw [HasRoom, builds]
  cases h with
  | startLevel | operator =>
    simp only [List.length_cons]
    omega
  | endLevel _ hbelow =>
    rw [hbelow, List.length_cons] at hbuilds
    dsimp only
    omega
  | literal | reference =>
    dsimp only [collect]
    omega

/-- The second machine is above the frames `base` and inside `levels` open levels what the
first machine is by itself. -/
structure Inside (base : List Frame) (levels : Nat) (m n : Machine) : Prop where
  top : n.top.content = m.top.content
  below : ∃ fs, n.below = fs ++ base ∧ fs.map Frame.content = m.below.map Frame.content
  depth : n.depth = m.depth + levels

theorem exists_close_of_content {f g f' f₂ g₂ : Frame} (index' : Nat)
    (hsiblings : o'.siblings = o.siblings) (hf : f₂.content = f.content)
    (hg : g₂.content = g.content) (h : close o index f g = .ok f') :
    ∃ f₂', close o' index' f₂ g₂ = .ok f₂' ∧ f₂'.content = f'.content := by
  obtain ⟨hbinding, hpending⟩ := Frame.content_eq_iff.mp hf
  obtain ⟨hbinding', hpending'⟩ := Frame.content_eq_iff.mp hg
  obtain ⟨hle, joined, hjoined, rfl⟩ := close_eq_ok_iff.mp h
  refine ⟨{ g₂ with pending := joined }, ?_, Frame.content_eq_iff.mpr ⟨hbinding', rfl⟩⟩
  rw [deliver_eq_ok_iff] at hjoined
  refine close_eq_ok_iff.mpr ⟨?_, joined, ?_, rfl⟩
  · rw [hsiblings, hpending]
    exact hle
  · rw [deliver_eq_ok_iff, hbinding, hpending, hpending']
    exact hjoined

theorem Inside.exists_step (index' : Nat) (h : Inside base levels m n)
    (hsiblings : o'.siblings = o.siblings) (hroom : HasRoom o' n 1)
    (hstep : Step v o index t m m') :
    ∃ n', Step v o' index' t n n' ∧ Inside base levels m' n' := by
  obtain ⟨htop, ⟨fs, hbelow, hfs⟩, hdepth⟩ := h
  obtain ⟨hbinding, hpending⟩ := Frame.content_eq_iff.mp htop
  cases hstep with
  | startLevel ht =>
    refine ⟨_, .startLevel ht hroom.1 hroom.2, rfl, ⟨n.top :: fs, ?_, ?_⟩, ?_⟩
    · rw [hbelow, List.cons_append]
    · rw [List.map_cons, List.map_cons, htop, hfs]
    · dsimp only
      omega
  | @endLevel f top below ht hbelow' hdepth' hpending' hclose =>
    rw [hbelow', List.map_cons] at hfs
    obtain ⟨g, gs, rfl, hg, hgs⟩ := List.map_eq_cons_iff.mp hfs
    obtain ⟨top', hclose', htop'⟩ := exists_close_of_content index' hsiblings htop hg hclose
    refine ⟨_, .endLevel ht hbelow ?_ ?_ hclose', htop', ⟨gs, rfl, hgs⟩, ?_⟩
    · omega
    · rw [hpending]
      exact hpending'
    · dsimp only
      omega
  | operator ht hb =>
    refine ⟨_, .operator ht hb hroom.2, rfl, ⟨n.top :: fs, ?_, ?_⟩, hdepth⟩
    · rw [hbelow, List.cons_append]
    · rw [List.map_cons, List.map_cons, htop, hfs]
  | literal ht =>
    refine ⟨_, .literal ht, Frame.content_eq_iff.mpr ⟨hbinding, ?_⟩, ⟨fs, hbelow, hfs⟩, hdepth⟩
    simp only [collect, hpending]
  | reference ht hf =>
    refine ⟨_, .reference ht hf, Frame.content_eq_iff.mpr ⟨hbinding, ?_⟩, ⟨fs, hbelow, hfs⟩,
      hdepth⟩
    simp only [collect, hpending]

theorem Inside.exists_read (index' : Nat) (h : Inside base levels m n)
    (hsiblings : o'.siblings = o.siblings) (hroom : HasRoom o' n tokens.length)
    (hread : m.read v o index tokens = .ok m') :
    ∃ n', n.read v o' index' tokens = .ok n' ∧ Inside base levels m' n' := by
  induction tokens generalizing m n index index' with
  | nil =>
    cases hread
    exact ⟨n, rfl, h⟩
  | cons t rest ih =>
    obtain ⟨m₁, hstep, hread⟩ := read_cons_eq_ok_iff.mp hread
    rw [List.length_cons] at hroom
    have hroom₁ : HasRoom o' n 1 := ⟨by have := hroom.1; omega, by have := hroom.2; omega⟩
    obtain ⟨n₁, hstep', h₁⟩ := h.exists_step index' hsiblings hroom₁ hstep
    obtain ⟨n', hread', h'⟩ := ih (index' + 1) h₁ (hstep'.hasRoom hroom) hread
    exact ⟨n', read_cons_eq_ok_iff.mpr ⟨n₁, hstep', hread'⟩, h'⟩

/-- A stack that ends with a value does so above other frames as well: once its top frame has
ended there, the rest ends like the frames below with the value added to them. -/
theorem exists_close_inside {top top' : Frame} {below fs : List Frame} {value : Option Expr}
    (g : Frame) (base : List Frame) (index' : Nat) (hsiblings : o'.siblings = o.siblings)
    (h : unwind o index top below = .ok value)
    (hbottom : (openers top below).getLast? = some .startLevel)
    (htop : top'.content = top.content) (hfs : fs.map Frame.content = below.map Frame.content) :
    ∃ f rest f', fs ++ g :: base = f :: rest ∧ close o' index' top' f = .ok f' ∧
      ∀ i, unwind o' i f' rest =
        unwind o' i { g with pending := g.pending ++ value.toList } base := by
  induction below generalizing top top' fs index' with
  | nil =>
    obtain rfl : fs = [] := by simpa using hfs
    obtain ⟨hle, rfl⟩ := reduce_eq_ok_iff.mp h
    obtain ⟨hbinding, hpending⟩ := Frame.content_eq_iff.mp htop
    have hscope : top'.scope.binding? = none := by
      rw [hbinding, Scope.binding?_eq_none_iff]
      simpa [openers] using hbottom
    refine ⟨g, base, { g with pending := g.pending ++ top.pending.head?.toList }, rfl, ?_,
      fun i => rfl⟩
    refine close_eq_ok_iff.mpr ⟨?_, _, ?_, rfl⟩
    · rw [hsiblings, hpending]
      exact hle
    · rw [deliver_eq_ok_iff, hscope, hpending]
  | cons b bs ih =>
    obtain ⟨t₁, hclose, h⟩ := bind_eq_ok_iff.mp h
    obtain ⟨b', fs', rfl, hb', hfs'⟩ := List.map_eq_cons_iff.mp hfs
    obtain ⟨t₁', hclose', ht₁⟩ := exists_close_of_content index' hsiblings htop hb' hclose
    have hbottom₁ : (openers t₁ bs).getLast? = some .startLevel := by
      rw [openers_of_close hclose]
      simpa [openers] using hbottom
    refine ⟨b', fs' ++ g :: base, t₁', rfl, hclose', ?_⟩
    intro i
    obtain ⟨f, rest, f', hrest, hf', hunwind⟩ := ih i h hbottom₁ ht₁ hfs'
    rw [hrest, unwind, hf', ok_bind]
    exact hunwind i

end Machine
end CertPolicy
