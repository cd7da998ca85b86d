import PiecewiseNet.Shape
import Mathlib.Data.Finite.Defs
import Mathlib.Data.Fintype.Card
import Mathlib.Data.Set.Finite.List
import Mathlib.Logic.Relation

/-!
# Dependence between nodes

Chains of references between the nodes of an arena.

## Main definitions

- `Arena.Reads`: one node reads another one.
- `Arena.DependsOn`: a chain of references leads from one node to another.
- `Query.Acyclic`: no member depends on itself through a reference.

## Main statements

- `Query.acyclic_of_lt`: queries over nodes that read earlier ones are acyclic.
- `Query.Acyclic.induction`: a property of members that passes from what a member reads to the
  member holds of all members.
-/

namespace PiecewiseNet

variable {α : Type}

/-- The node at a place reads another one. -/
def Arena.Reads (a : Arena α) (id target : NodeId) : Prop :=
  target ∈ Network.references a id

/-- A chain of references, possibly without a link, leads from a node to another one. -/
def Arena.DependsOn (a : Arena α) : NodeId → NodeId → Prop :=
  Relation.ReflTransGen a.Reads

/-- No chain of references leads from a member back to it. -/
def Query.Acyclic (q : Query α) (a : Arena α) : Prop :=
  ∀ id ∈ q.nodes, ¬Relation.TransGen a.Reads id id

theorem Arena.reads_iff {a : Arena α} {id target : NodeId} {n : Node α} (hn : a.get? id = some n) :
    a.Reads id target ↔ target ∈ n.references := by
  simp [Reads, Network.references, hn]

theorem Arena.reads_congr {a b : Arena α} {id r : NodeId} (h : b.get? id = a.get? id) :
    b.Reads id r ↔ a.Reads id r := by
  rw [Reads, Reads, Network.references, Network.references, h]

/-- Nodes that only read nodes added before them depend on no node in a circle. -/
theorem Query.acyclic_of_lt {q : Query α} {a : Arena α}
    (h : ∀ id < a.size, ∀ r ∈ Network.references a id, r < id) : q.Acyclic a := by
  have hread : ∀ id r, a.Reads id r → r < id := by
    intro id r hr
    by_cases hid : id < a.size
    · exact h id hid r hr
    · have hnone : a.get? id = none := by simpa [Arena.get?, Arena.size] using hid
      simp [Arena.Reads, Network.references, hnone] at hr
  have hchain : ∀ id r, Relation.TransGen a.Reads id r → r < id := by
    intro id r hr
    induction hr with
    | single hr => exact hread _ _ hr
    | tail _ hr ih => exact (hread _ _ hr).trans ih
  intro id _ hcycle
  exact Nat.lt_irrefl id (hchain id id hcycle)

/-- What an acyclic query's members inherit from the nodes they read, all members have. -/
theorem Query.Acyclic.induction {q : Query α} {a : Arena α} (h : q.Acyclic a)
    {p : NodeId → Prop} (hstep : ∀ id ∈ q.nodes, (∀ r ∈ q.nodes, a.Reads id r → p r) → p id) :
    ∀ id ∈ q.nodes, p id := by
  have hfinite : Finite {id // id ∈ q.nodes} := (List.finite_toSet q.nodes).to_subtype
  -- Chains of references among finitely many nodes that never return are well-founded.
  let back : {id // id ∈ q.nodes} → {id // id ∈ q.nodes} → Prop :=
    fun r id => Relation.TransGen a.Reads id.1 r.1
  have htrans : IsTrans _ back := ⟨fun _ _ _ hxy hyz => hyz.trans hxy⟩
  have hirrefl : Std.Irrefl back := ⟨fun id => h id.1 id.2⟩
  have hwf : WellFounded back := Finite.wellFounded_of_trans_of_irrefl back
  intro id hid
  exact hwf.induction (C := fun id => p id.1) ⟨id, hid⟩ fun j ih =>
    hstep j.1 j.2 fun r hr hread => ih ⟨r, hr⟩ (.single hread)

end PiecewiseNet
