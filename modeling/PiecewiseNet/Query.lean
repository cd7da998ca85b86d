import PiecewiseNet.Equation

/-!
# Queries

A query asks for values of finitely many nodes that satisfy their definitions, their bounds and
further equations.

## Main definitions

- `Query`: members, designated inputs and outputs, and equations.
- `Query.new`: a query over given members, each kept once.
- `Query.Change`: computations that change a query and may fail.
- `Query.addEquation`: adds an equation over members.
- `Query.checkIntegrity`: the members are in the arena and read members only.
-/

namespace PiecewiseNet

/-- A satisfiability question about nodes. Whatever it names is a member. -/
structure Query (α : Type) where
  /-- The members, each once. -/
  nodes : List NodeId
  inputs : List NodeId
  outputs : List NodeId
  equations : List (Equation α)
  nodes_nodup : nodes.Nodup
  inputs_subset : inputs ⊆ nodes
  outputs_subset : outputs ⊆ nodes
  terms_subset : ∀ e ∈ equations, e.nodes ⊆ nodes
deriving DecidableEq, Repr

/-- Keeping first occurrences leaves each node once. -/
theorem nodup_eraseDups (ids : List NodeId) : ids.eraseDups.Nodup := by
  cases ids with
  | nil => simp
  | cons id ids =>
    rw [List.eraseDups_cons, List.nodup_cons]
    refine ⟨?_, nodup_eraseDups _⟩
    simp [List.mem_eraseDups]
termination_by ids.length
decreasing_by
  have := List.length_filter_le (fun b => !b == id) ids
  simp only [List.length_cons]
  omega

namespace Query

variable {α : Type}

/-- The node is a member. -/
def contains (q : Query α) (id : NodeId) : Bool :=
  q.nodes.contains id

/-- Refuses the first node that is not among the members. -/
def requireMembers (members : List NodeId) (role : Role) :
    List NodeId → Except (GraphError α) Unit
  | [] => .ok ()
  | id :: ids =>
    if members.contains id then requireMembers members role ids else .error (.notMember role id)

/-- Exactly the lists of members are not refused. -/
theorem requireMembers_eq_ok_iff {members : List NodeId} {role : Role} {ids : List NodeId} :
    requireMembers (α := α) members role ids = .ok () ↔ ids ⊆ members := by
  induction ids with
  | nil => simp [requireMembers]
  | cons id ids ih =>
    unfold requireMembers
    split
    · rename_i h
      rw [ih, List.cons_subset]
      simp_all
    · rename_i h
      rw [List.cons_subset]
      simp_all

/-- The query with one more equation over its members. -/
def withEquation (q : Query α) (e : Equation α) (h : e.nodes ⊆ q.nodes) : Query α :=
  { q with
    equations := q.equations ++ [e]
    terms_subset := by
      intro f hf
      rcases List.mem_append.1 hf with hf | hf
      · exact q.terms_subset f hf
      · exact List.mem_singleton.1 hf ▸ h }

/-- Computations that change a query and may fail; a failure keeps the changes made before it. -/
abbrev Change (α β : Type) := ExceptT (GraphError α) (StateM (Query α)) β

/-- The query that a change leaves behind, unless it fails. -/
def Change.applied (c : Change α Unit) (q : Query α) : Except (GraphError α) (Query α) :=
  match c.run q with
  | (.ok (), q') => .ok q'
  | (.error err, _) => .error err

/-- Adds an equation, after all its terms were found to be members. -/
def addEquation (e : Equation α) : Change α Unit := do
  let q ← get
  match h : requireMembers q.nodes .equationTerm e.nodes with
  | .error err => throw err
  | .ok () => set (q.withEquation e (requireMembers_eq_ok_iff.1 h))

/-- The query with one more equation, unless a term of it is not a member. -/
def pushEquation (q : Query α) (e : Equation α) : Except (GraphError α) (Query α) :=
  (addEquation e).applied q

/-- A query over the given members, of which the first occurrences count. Inputs, outputs and the
terms of equations must be members. -/
def new (nodes inputs outputs : List NodeId) (equations : List (Equation α)) :
    Except (GraphError α) (Query α) :=
  match hi : requireMembers nodes.eraseDups .input inputs with
  | .error err => .error err
  | .ok () =>
    match ho : requireMembers nodes.eraseDups .output outputs with
    | .error err => .error err
    | .ok () =>
      Change.applied (equations.forM addEquation)
        { nodes := nodes.eraseDups, inputs, outputs, equations := []
          nodes_nodup := nodup_eraseDups nodes
          inputs_subset := requireMembers_eq_ok_iff.1 hi
          outputs_subset := requireMembers_eq_ok_iff.1 ho
          terms_subset := by simp }

/-- Refuses the first node that reads one outside the query. -/
def requireInside (q : Query α) (a : Arena α) (id : NodeId) :
    List NodeId → Except (GraphError α) Unit
  | [] => .ok ()
  | target :: targets =>
    if q.contains target then q.requireInside a id targets
    else .error (.outside (a.name id) target)

/-- Checks members one after the other: each is in the arena and reads members only. -/
def checkNodes (q : Query α) (a : Arena α) : List NodeId → Except (GraphError α) Unit
  | [] => .ok ()
  | id :: ids =>
    match a.get? id with
    | none => .error (.foreign id)
    | some n =>
      match q.requireInside a id n.references with
      | .error err => .error err
      | .ok () => q.checkNodes a ids

/-- The members are in the arena and read members only. -/
def checkIntegrity (q : Query α) (a : Arena α) : Except (GraphError α) Unit :=
  q.checkNodes a q.nodes

/-- The sizes of the query in words. -/
def summary (q : Query α) : String :=
  "Query: " ++ toString q.nodes.length ++ " nodes, " ++ toString q.inputs.length ++ " inputs, " ++
    toString q.outputs.length ++ " outputs, " ++ toString q.equations.length ++ " equations"

end Query

end PiecewiseNet
