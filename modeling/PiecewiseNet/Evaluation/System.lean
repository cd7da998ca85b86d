import PiecewiseNet.Evaluation.Error
import PiecewiseNet.Query

/-!
# Constraint systems

For evaluation the members of a query are numbered in their order. An affine member becomes the
equation that its terms less itself sum to the opposite of its constant, a rectifier becomes a pair
of variables, and the equations of the query are kept.

## Main definitions

- `Constraint`, `Rectifier`: the two kinds of relations between variables.
- `ConstraintSystem`: the numbered form of a query.
- `ConstraintSystem.ofQuery`: numbers a query.
-/

namespace PiecewiseNet

variable {α : Type}

/-- A sum of scaled variables compared with a number. -/
structure Constraint (α : Type) where
  kind : Comparator
  /-- The number it is compared with. -/
  scalar : α
  /-- The variables with their coefficients. -/
  terms : List (Nat × α)
deriving DecidableEq, Repr

/-- The output is the positive part of the input. -/
structure Rectifier where
  /-- The variable whose positive part is taken. -/
  input : Nat
  /-- The variable that equals it. -/
  output : Nat
deriving DecidableEq, Repr

/-- A query over numbered variables. -/
structure ConstraintSystem (α : Type) where
  /-- The member behind each variable. -/
  ids : List NodeId
  names : List String
  inputs : List Nat
  outputs : List Nat
  bounds : List (Interval α)
  /-- The definitions of the affine members, then the equations of the query. -/
  constraints : List (Constraint α)
  relus : List Rectifier

namespace ConstraintSystem

/-- The number of variables. -/
def size (s : ConstraintSystem α) : Nat :=
  s.ids.length

/-- The name of a variable. -/
def name (s : ConstraintSystem α) (i : Nat) : String :=
  s.names[i]?.getD ""

/-- The number of a member. -/
def indexOf? (s : ConstraintSystem α) (id : NodeId) : Option Nat :=
  List.idxOf? id s.ids

/-- The definition of an affine member as a constraint. -/
def definitionOf [Scalar α] (ids : List NodeId) (i : Nat) (n : Node α) : Option (Constraint α) :=
  match n.kind with
  | .affine terms bias =>
    some { kind := .eq, scalar := -bias,
           terms := terms.map (fun p => (List.idxOf p.2 ids, p.1)) ++ [(i, -1)] }
  | _ => none

/-- The pair of a rectifier. -/
def rectifierOf (ids : List NodeId) (i : Nat) (n : Node α) : Option Rectifier :=
  match n.kind with
  | .relu input _ => some ⟨List.idxOf input ids, i⟩
  | _ => none

/-- An equation of the query over numbered variables. -/
def equationOf (ids : List NodeId) (e : Equation α) : Constraint α :=
  { kind := e.comparator, scalar := e.scalar,
    terms := e.terms.map fun p => (List.idxOf p.2 ids, p.1) }

/-- The node is an absolute value. -/
def isAbs (n : Node α) : Bool :=
  match n.kind with
  | .abs _ => true
  | _ => false

/-- Numbers the members of a query. -/
def ofQuery [Scalar α] (a : Arena α) (q : Query α) :
    Except (EvalError α) (ConstraintSystem α) :=
  match q.checkIntegrity a with
  | .error e => .error (.graph e)
  | .ok () =>
    let nodes := a.numbered q.nodes
    -- An absolute value has no constraint that propagation could use.
    match q.nodes.find? fun id => (a.get? id).any isAbs with
    | some id => .error (.unsupportedKind "abs" (a.name id))
    | none =>
      .ok {
        ids := q.nodes
        names := q.nodes.map a.name
        inputs := q.inputs.map fun id => List.idxOf id q.nodes
        outputs := q.outputs.map fun id => List.idxOf id q.nodes
        bounds := nodes.map (·.2.bounds)
        constraints := nodes.filterMap (fun p => definitionOf q.nodes p.1 p.2) ++
          q.equations.map (equationOf q.nodes)
        relus := nodes.filterMap fun p => rectifierOf q.nodes p.1 p.2 }

end ConstraintSystem

end PiecewiseNet
