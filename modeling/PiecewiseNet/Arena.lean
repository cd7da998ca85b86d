import PiecewiseNet.GraphError
import PiecewiseNet.Substitution

/-!
# Arenas

All nodes live in one arena that only grows. Structures that share an arena (a network, its copies
and the queries about them) share the nodes they name.

## Main definitions

- `Arena`: the nodes, each at its place.
- `Arena.get?`, `Arena.push`, `Arena.set`: reading, adding and replacing nodes.
- `Arena.numbered`: the nodes at a list of places, numbered.
- `Edit`: computations that change an arena and may fail. A failure keeps the changes made before
  it.
- `Edit.copyNode`, `Edit.sever`, `Edit.limit`, `Edit.redirect`: the changes to one node.
-/

namespace PiecewiseNet

/-- The nodes of a session, each at its place. -/
structure Arena (α : Type) where
  nodes : Array (Node α) := #[]
deriving DecidableEq, Repr

namespace Arena

variable {α : Type}

/-- The arena without nodes. -/
def empty : Arena α :=
  ⟨#[]⟩

/-- The number of nodes. -/
def size (a : Arena α) : Nat :=
  a.nodes.size

/-- The node at a place, if the arena has that place. -/
def get? (a : Arena α) (id : NodeId) : Option (Node α) :=
  a.nodes[id]?

/-- The arena has this place. -/
def holds (a : Arena α) (id : NodeId) : Bool :=
  decide (id < a.size)

/-- The arena with one more node, which takes the place `a.size`. -/
def push (a : Arena α) (n : Node α) : Arena α :=
  ⟨a.nodes.push n⟩

/-- The arena with another node at a place. -/
def set (a : Arena α) (id : NodeId) (n : Node α) : Arena α :=
  ⟨a.nodes.setIfInBounds id n⟩

/-- The node at a place that the caller promises to exist. -/
def node (a : Arena α) (id : NodeId) : Except (GraphError α) (Node α) :=
  match a.get? id with
  | some n => .ok n
  | none => .error (.misuse (.foreignNode id))

/-- The label of a node, or the text of its place. -/
def name (a : Arena α) (id : NodeId) : String :=
  match (a.get? id).bind Node.label with
  | some l => l
  | none => id.text

/-- The nodes at a list of places, each with the position of its place in the list; a place that the
arena does not have is passed over. -/
def numbered (a : Arena α) (ids : List NodeId) : List (Nat × Node α) :=
  ids.zipIdx.filterMap fun p => (a.get? p.1).map fun n => (p.2, n)

@[simp] theorem size_push (a : Arena α) (n : Node α) : (a.push n).size = a.size + 1 := by
  simp [push, size]

@[simp] theorem size_set (a : Arena α) (id : NodeId) (n : Node α) :
    (a.set id n).size = a.size := by
  simp [set, size]

theorem get?_push (a : Arena α) (n : Node α) (id : NodeId) :
    (a.push n).get? id = if id = a.size then some n else a.get? id := by
  simp only [push, get?, size, Array.getElem?_push]
  rfl

theorem get?_set (a : Arena α) (id : NodeId) (n : Node α) (j : NodeId) :
    (a.set id n).get? j = if id = j ∧ id < a.size then some n else a.get? j := by
  simp only [set, get?, size, Array.getElem?_setIfInBounds]
  by_cases h : id = j
  · subst h
    by_cases hlt : id < a.nodes.size <;> simp [hlt]
  · simp [h]

theorem get?_eq_none_iff (a : Arena α) (id : NodeId) : a.get? id = none ↔ a.size ≤ id := by
  simp [get?, size]

theorem lt_size_of_get? {a : Arena α} {id : NodeId} {n : Node α} (h : a.get? id = some n) :
    id < a.size := by
  rcases Nat.lt_or_ge id a.size with hlt | hge
  · exact hlt
  · rw [(a.get?_eq_none_iff id).2 hge] at h
    cases h

theorem exists_get? {a : Arena α} {id : NodeId} (h : id < a.size) : ∃ n, a.get? id = some n := by
  cases hn : a.get? id with
  | none => exact absurd h (Nat.not_lt.2 ((a.get?_eq_none_iff id).1 hn))
  | some n => exact ⟨n, rfl⟩

theorem mem_numbered {a : Arena α} {ids : List NodeId} {i : Nat} {n : Node α} :
    (i, n) ∈ a.numbered ids ↔ ∃ id, ids[i]? = some id ∧ a.get? id = some n := by
  simp only [numbered, List.mem_filterMap, Option.map_eq_some_iff, Prod.mk.injEq, Prod.exists]
  constructor
  · rintro ⟨id, j, hmem, m, hm, rfl, rfl⟩
    exact ⟨id, List.mem_zipIdx_iff_getElem?.1 hmem, hm⟩
  · rintro ⟨id, hid, hn⟩
    exact ⟨id, i, List.mem_zipIdx_iff_getElem?.2 hid, n, hn, rfl, rfl⟩

end Arena

/-- Computations that change an arena and may fail; a failure keeps the changes made before it. -/
abbrev Edit (ε α β : Type) := ExceptT ε (StateM (Arena α)) β

namespace Edit

variable {ε α β : Type}

/-- Looks at the arena. -/
def arena : Edit ε α (Arena α) :=
  get

/-- A fallible computation that leaves the arena alone. -/
def ofExcept (e : Except ε β) : Edit ε α β :=
  ExceptT.mk (pure e)

/-- A fallible reading of the arena. -/
def reading (f : Arena α → Except ε β) : Edit ε α β := do
  ofExcept (f (← arena))

/-- Adds a node and returns its place. -/
def push (n : Node α) : Edit ε α NodeId := do
  let a ← arena
  set (a.push n)
  return a.size

/-- The node at a place. -/
def node (id : NodeId) : Edit (GraphError α) α (Node α) :=
  reading (·.node id)

/-- Replaces a node by a function of it. -/
def update (id : NodeId) (f : Node α → Node α) : Edit (GraphError α) α Unit := do
  let n ← node id
  set ((← arena).set id (f n))

/-- Adds a copy of a node whose label ends in `suffix`. -/
def copyNode (id : NodeId) (suffix : String) : Edit (GraphError α) α NodeId := do
  push ((← node id).copied suffix)

/-- Adds a free value with the bounds of a node and a label that ends in `suffix`. -/
def sever (id : NodeId) (suffix : String) : Edit (GraphError α) α NodeId := do
  push ((← node id).severed suffix)

/-- Narrows the bounds of a node, unless nothing would be left. -/
def limit [Scalar α] (id : NodeId) (lower upper : Option α) : Edit (GraphError α) α Unit := do
  let n ← node id
  let narrowed := n.bounds.narrowed lower upper
  match narrowed.lower, narrowed.upper with
  | some l, some u =>
    if u < l then
      throw (.emptyBounds n.displayName l u)
    else
      update id ({ · with bounds := narrowed })
  | _, _ => update id ({ · with bounds := narrowed })

/-- Lets a node read other nodes. -/
def redirect (s : Substitution) (id : NodeId) : Edit (GraphError α) α Unit :=
  update id (·.redirect s.apply)

end Edit

end PiecewiseNet
