import CertPolicy.Proofs.Machine.Simulation
import CertPolicy.Proofs.Machine.Step

/-!
# Properties of all nodes

What holds of literals, of fields and of everything that an operator of the policy makes holds of
every node of the policy: no other expressions come into being while it is read.
-/

namespace CertPolicy
set_option autoImplicit false

/-- A property of leaves that operators preserve: they need not have operands with the property
for that, only as many as they take at least. -/
structure NodeProperty (P : Expr → Prop) (Q : Binding → Prop) : Prop where
  literal : ∀ text, P (.literal text)
  field : ∀ f, P (.field f)
  combine : ∀ b es, Q b → b.minOperands ≤ es.length → P (b.combine es)

/-- A property of operations that says nothing of leaves. -/
theorem NodeProperty.of_operations {P : Operator → List Expr → Prop} {Q : Binding → Prop}
    (h : ∀ b es, Q b → b.minOperands ≤ es.length → P b.operator es) :
    NodeProperty (fun n => ∀ operator es, n = .operation operator es → P operator es) Q where
  literal := nofun
  field := nofun
  combine b es hQ hle operator fs hcombine := by
    obtain ⟨rfl, rfl⟩ := Expr.operation.inj hcombine
    exact h b es hQ hle

namespace Machine
variable {P : Expr → Prop} {Q : Binding → Prop} {v : Vocabulary} {o : Options} {index : Nat}
variable {t : Token} {tokens : List Token} {m m' : Machine}

/-- Every node in a stack has a property, and so has every operator that is open in it. -/
structure AllNodes (P : Expr → Prop) (Q : Binding → Prop) (stack : List Frame) : Prop where
  nodes : ∀ f ∈ stack, ∀ e ∈ f.pending, ∀ n ∈ e.nodes, P n
  operators : ∀ f ∈ stack, ∀ b, f.scope.binding? = some b → Q b

theorem allNodes_cons {f : Frame} {below : List Frame} :
    AllNodes P Q (f :: below) ↔ (∀ e ∈ f.pending, ∀ n ∈ e.nodes, P n) ∧
      (∀ b, f.scope.binding? = some b → Q b) ∧ AllNodes P Q below := by
  constructor
  · rintro ⟨hnodes, hoperators⟩
    rw [List.forall_mem_cons] at hnodes hoperators
    exact ⟨hnodes.1, hoperators.1, hnodes.2, hoperators.2⟩
  · rintro ⟨hnodes, hoperators, hbelow, hbelow'⟩
    exact ⟨List.forall_mem_cons.mpr ⟨hnodes, hbelow⟩,
      List.forall_mem_cons.mpr ⟨hoperators, hbelow'⟩⟩

theorem allNodes_collect {f : Frame} {below : List Frame} {e : Expr}
    (h : AllNodes P Q (f :: below)) (he : ∀ n ∈ e.nodes, P n) :
    AllNodes P Q ({ f with pending := f.pending ++ [e] } :: below) := by
  obtain ⟨hnodes, hoperators, hbelow⟩ := allNodes_cons.mp h
  refine allNodes_cons.mpr ⟨?_, hoperators, hbelow⟩
  intro x hx
  rcases List.mem_append.mp hx with hx | hx
  · exact hnodes x hx
  · rw [List.mem_singleton.mp hx]
    exact he

theorem allNodes_close {f g f' : Frame} {below : List Frame} (hP : NodeProperty P Q)
    (h : AllNodes P Q (f :: g :: below)) (hclose : close o index f g = .ok f') :
    AllNodes P Q (f' :: below) := by
  obtain ⟨hnodes, hoperators, hg⟩ := allNodes_cons.mp h
  obtain ⟨hgnodes, hgoperators, hbelow⟩ := allNodes_cons.mp hg
  obtain ⟨_, joined, hjoined, rfl⟩ := close_eq_ok_iff.mp hclose
  rw [deliver_eq_ok_iff] at hjoined
  cases hhead : f.pending.head? with
  | none =>
    cases hscope : f.scope.binding? with
    | none =>
      simp only [hscope, hhead, Option.toList_none, List.append_nil] at hjoined
      rw [hjoined]
      exact hg
    | some b => simp [hscope, hhead] at hjoined
  | some e =>
    have he : ∀ n ∈ e.nodes, P n := hnodes e (List.mem_of_head? hhead)
    have hcollected := allNodes_collect hg he
    cases hscope : f.scope.binding? with
    | none =>
      simp only [hscope, hhead, Option.toList_some] at hjoined
      rw [hjoined]
      exact hcollected
    | some b =>
      simp only [hscope, hhead, Option.some.injEq] at hjoined
      obtain ⟨_, rfl, hle, rfl⟩ := hjoined
      refine allNodes_cons.mpr ⟨?_, hgoperators, hbelow⟩
      intro x hx n hn
      rw [List.mem_singleton.mp hx, Binding.combine, Expr.nodes, Expr.nodesAll_eq_flatMap] at hn
      rcases List.mem_cons.mp hn with rfl | hn
      · exact hP.combine b _ (hoperators b hscope) (by simpa using hle)
      · obtain ⟨x, hx, hn⟩ := List.mem_flatMap.mp hn
        exact (allNodes_cons.mp hcollected).1 x hx n hn

theorem Step.allNodes (hP : NodeProperty P Q)
    (hQ : ∀ b, t.category = .operator → v.operators.find? t.text = some b → Q b)
    (h : AllNodes P Q (m.top :: m.below)) (hstep : Step v o index t m m') :
    AllNodes P Q (m'.top :: m'.below) := by
  cases hstep with
  | startLevel => exact allNodes_cons.mpr ⟨nofun, nofun, h⟩
  | endLevel _ hbelow _ _ hclose =>
    rw [hbelow] at h
    exact allNodes_close hP h hclose
  | operator ht hb =>
    refine allNodes_cons.mpr ⟨nofun, ?_, h⟩
    rintro b ⟨⟩
    exact hQ _ ht hb
  | literal => exact allNodes_collect h (by simpa [Expr.nodes] using hP.literal t.text)
  | @reference f => exact allNodes_collect h (by simpa [Expr.nodes] using hP.field f)

theorem allNodes_read (hP : NodeProperty P Q)
    (hQ : ∀ t ∈ tokens, ∀ b, t.category = .operator → v.operators.find? t.text = some b → Q b)
    (h : AllNodes P Q (m.top :: m.below)) (hread : m.read v o index tokens = .ok m') :
    AllNodes P Q (m'.top :: m'.below) := by
  induction tokens generalizing m index with
  | nil =>
    cases hread
    exact h
  | cons t rest ih =>
    obtain ⟨n, hstep, hread⟩ := read_cons_eq_ok_iff.mp hread
    rw [List.forall_mem_cons] at hQ
    exact ih hQ.2 (hstep.allNodes hP hQ.1 h) hread

theorem allNodes_unwind {top : Frame} {below : List Frame} {e : Expr} (hP : NodeProperty P Q)
    (h : AllNodes P Q (top :: below)) (hunwind : unwind o index top below = .ok (some e)) :
    ∀ n ∈ e.nodes, P n := by
  induction below generalizing top with
  | nil =>
    obtain ⟨_, he⟩ := reduce_eq_ok_iff.mp hunwind
    exact (allNodes_cons.mp h).1 e (List.mem_of_head? he.symm)
  | cons f below ih =>
    obtain ⟨f', hclose, hunwind⟩ := bind_eq_ok_iff.mp hunwind
    exact ih (allNodes_close hP h hclose) hunwind

end Machine

/-- A property of leaves that the operators of the policy preserve holds of all its nodes. -/
theorem forall_nodes_of_build {P : Expr → Prop} {Q : Binding → Prop} {v : Vocabulary}
    {o : Options} {tokens : List Token} {e : Expr} (hP : NodeProperty P Q)
    (hQ : ∀ t ∈ tokens, ∀ b, t.category = .operator → v.operators.find? t.text = some b → Q b)
    (h : Expr.build v o tokens = .ok (some e)) : ∀ n ∈ e.nodes, P n := by
  obtain ⟨_, m, hread, hfinish⟩ := Expr.build_eq_ok_iff.mp h
  have hstart : Machine.AllNodes P Q (Machine.start.top :: Machine.start.below) :=
    Machine.allNodes_cons.mpr ⟨nofun, nofun, nofun, nofun⟩
  exact Machine.allNodes_unwind hP (Machine.allNodes_read hP hQ hstart hread)
    (Machine.finish_eq_ok_iff.mp hfinish).1

end CertPolicy
