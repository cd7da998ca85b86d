import PiecewiseNet.Network

/-!
# Solutions

What networks and queries mean: the values of their nodes that satisfy every definition, all bounds
and all equations.

## Main definitions

- `Valuation`: values for the nodes of an arena.
- `NodeKind.value`: the value that a kind computes from the values of the nodes it reads.
- `Arena.Satisfies`: the value of a node agrees with its definition and lies within its bounds.
- `Network.Runs`: the values satisfy every node of a network.
- `Query.Solves`: the values satisfy every member and every equation of a query.
- `Arena.compute`: values computed one node after the other.

## Main statements

- `NodeKind.value_congr`: a value depends on the nodes that are read, and on nothing else.
- `NodeKind.value_redirect`: reading other nodes is reading other values.

## Design notes

A free node computes the value it has, so one equation says for every kind that a value agrees with
the definition. Sums are taken from the left, value times coefficient, as evaluation does; over the
rational numbers the order does not matter.
-/

namespace PiecewiseNet

variable {α : Type} [Scalar α]

/-- Values for the nodes of an arena. -/
abbrev Valuation (α : Type) := NodeId → α

/-- The value of a sum of scaled nodes, summed from the left. -/
def Terms.value (v : Valuation α) (ts : Terms α) : α :=
  ts.foldl (fun acc t => acc + v t.2 * t.1) 0

/-- The value that a kind computes from the values of the nodes it reads; a free node has the value
`free`. -/
def NodeKind.value (v : Valuation α) (free : α) : NodeKind α → α
  | plain => free
  | affine terms bias => terms.value v + bias
  | relu input _ => Scalar.positivePart (v input)
  | abs input => Scalar.magnitude (v input)

/-- The value agrees with the definition of the node, and lies within its bounds. -/
structure Node.Holds (n : Node α) (v : Valuation α) (x : α) : Prop where
  /-- The value is the one that the node computes. -/
  value : x = n.kind.value v x
  bounds : n.bounds.Holds x

/-- The node is in the arena, and the values satisfy it. -/
def Arena.Satisfies (a : Arena α) (v : Valuation α) (id : NodeId) : Prop :=
  ∃ n, a.get? id = some n ∧ n.Holds v (v id)

/-- The values satisfy an equation. -/
def Equation.Holds (v : Valuation α) (e : Equation α) : Prop :=
  e.comparator.Holds (e.terms.value v) e.scalar

/-- The values satisfy every node of a network. -/
def Network.Runs (net : Network) (a : Arena α) (v : Valuation α) : Prop :=
  ∀ id ∈ net.nodes, a.Satisfies v id

/-- The values satisfy every member and every equation of a query. -/
structure Query.Solves (q : Query α) (a : Arena α) (v : Valuation α) : Prop where
  nodes : ∀ id ∈ q.nodes, a.Satisfies v id
  equations : ∀ e ∈ q.equations, e.Holds v

/-- The values with another one for a node. -/
def Valuation.assign (v : Valuation α) (id : NodeId) (x : α) : Valuation α :=
  fun j => if j = id then x else v j

/-- The values computed along a list of nodes, each from those before it; free nodes and nodes that
are not listed keep their value. -/
def Arena.compute (a : Arena α) : List NodeId → Valuation α → Valuation α
  | [], v => v
  | id :: ids, v =>
    match a.get? id with
    | some n => a.compute ids (v.assign id (n.kind.value v (v id)))
    | none => a.compute ids v

/-! ## Valuations -/

omit [Scalar α] in
@[simp] theorem Valuation.assign_self (v : Valuation α) (id : NodeId) (x : α) :
    v.assign id x id = x := by
  simp [assign]

omit [Scalar α] in
theorem Valuation.assign_of_ne (v : Valuation α) {id j : NodeId} (x : α) (h : j ≠ id) :
    v.assign id x j = v j := by
  simp [assign, h]

/-! ## Values depend on the nodes that are read -/

/-- A sum has the same value where its nodes have the same values. -/
theorem Terms.value_congr {v w : Valuation α} {ts : Terms α}
    (h : ∀ id ∈ ts.nodes, v id = w id) : ts.value v = ts.value w := by
  unfold Terms.value
  generalize (0 : α) = start
  induction ts generalizing start with
  | nil => rfl
  | cons t ts ih =>
    have hhead : v t.2 = w t.2 := h t.2 (by simp [nodes])
    have htail : ∀ id ∈ Terms.nodes ts, v id = w id := by
      intro id hid
      exact h id (List.mem_cons_of_mem _ hid)
    rw [List.foldl_cons, List.foldl_cons, hhead]
    exact ih htail _

/-- A sum over other nodes has the value that the sum has where those nodes' values are read. -/
theorem Terms.value_redirect (v : Valuation α) (f : NodeId → NodeId) (ts : Terms α) :
    (ts.redirect f).value v = ts.value fun id => v (f id) := by
  simp only [Terms.value, Terms.redirect, List.foldl_map]

@[simp] theorem NodeKind.value_plain (v : Valuation α) (free : α) :
    (NodeKind.plain : NodeKind α).value v free = free := rfl

/-- A kind computes the same value where the nodes it reads have the same values. -/
theorem NodeKind.value_congr {v w : Valuation α} {k : NodeKind α}
    (h : ∀ id ∈ k.references, v id = w id) (free : α) : k.value v free = k.value w free := by
  cases k with
  | plain => rfl
  | affine terms bias => exact congrArg (· + bias) (Terms.value_congr h)
  | relu input relaxed => exact congrArg Scalar.positivePart (h input (by simp [references]))
  | abs input => exact congrArg Scalar.magnitude (h input (by simp [references]))

/-- A kind over other nodes computes what the kind computes where those nodes' values are read. -/
theorem NodeKind.value_redirect (v : Valuation α) (free : α) (f : NodeId → NodeId)
    (k : NodeKind α) : (k.redirect f).value v free = k.value (fun id => v (f id)) free := by
  cases k with
  | plain => rfl
  | affine terms bias => exact congrArg (· + bias) (Terms.value_redirect v f terms)
  | relu input relaxed => rfl
  | abs input => rfl

end PiecewiseNet
