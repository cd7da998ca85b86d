import PiecewiseNet.Node

/-!
# Substitutions

A finite table that sends nodes to nodes and leaves all others alone.

## Main definitions

- `Substitution.insert`: adds an entry in place of an earlier one for the same node.
- `Substitution.get?`, `Substitution.apply`: reading the table.
-/

namespace PiecewiseNet

/-- A finite table from nodes to nodes, the latest entry first, with one entry for a node. -/
structure Substitution where
  entries : List (NodeId × NodeId) := []
deriving DecidableEq, Repr

namespace Substitution

/-- The table without entries. -/
def empty : Substitution :=
  ⟨[]⟩

/-- Sends `source` to `target`, in place of an earlier entry. -/
def insert (s : Substitution) (source target : NodeId) : Substitution :=
  ⟨(source, target) :: s.entries.filter (·.1 != source)⟩

/-- The entries inserted one after the other. -/
def ofList (pairs : List (NodeId × NodeId)) : Substitution :=
  pairs.foldl (fun s p => s.insert p.1 p.2) empty

/-- The target of a node in the table. -/
def get? (s : Substitution) (id : NodeId) : Option NodeId :=
  s.entries.lookup id

/-- The target of a node, or the node itself. -/
def apply (s : Substitution) (id : NodeId) : NodeId :=
  (s.get? id).getD id

/-- The number of entries. -/
def size (s : Substitution) : Nat :=
  s.entries.length

/-- The targets of all entries. -/
def targets (s : Substitution) : List NodeId :=
  s.entries.map (·.2)

@[simp] theorem get?_empty (id : NodeId) : empty.get? id = none := rfl

@[simp] theorem apply_empty (id : NodeId) : empty.apply id = id := rfl

theorem lookup_filter_ne {entries : List (NodeId × NodeId)} {source id : NodeId}
    (h : id ≠ source) : (entries.filter (·.1 != source)).lookup id = entries.lookup id := by
  induction entries with
  | nil => rfl
  | cons e es ih =>
    obtain ⟨a, b⟩ := e
    by_cases ha : a = source
    · have hne : (id == a) = false := by simpa [ha] using h
      simpa [ha, List.lookup_cons, ha ▸ hne] using ih
    · simp [ha, List.lookup_cons, ih]

theorem get?_insert (s : Substitution) (source target id : NodeId) :
    (s.insert source target).get? id = if id = source then some target else s.get? id := by
  by_cases h : id = source
  · simp [insert, get?, h]
  · have hb : (id == source) = false := by simpa using h
    simp [insert, get?, List.lookup_cons, hb, h, lookup_filter_ne h]

theorem apply_insert (s : Substitution) (source target id : NodeId) :
    (s.insert source target).apply id = if id = source then target else s.apply id := by
  unfold apply
  rw [get?_insert]
  split <;> rfl

end Substitution

end PiecewiseNet
