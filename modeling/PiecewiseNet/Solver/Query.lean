import PiecewiseNet.FileError
import PiecewiseNet.Ipq.Basic
import PiecewiseNet.Query

/-!
# Queries for a solver

A solver sees a query over numbered variables: the declared inputs come first, then the other
members in their order. A member that no chain of references connects to an input cannot be derived
from the inputs; if its bounds coincide it is handed to the solver as a further input.

## Main definitions

- `reachable`: the members that read an input, directly or through others.
- `SolverQuery`: a query over numbered variables, with the member behind each number.
- `SolverQuery.ofQuery`: the numbered form of a query.
- `SolverQuery.toIpq`: the record set of a numbered query.
- `SolverQuery.witnessNodes`: the values that a witness gives to the members.
-/

namespace PiecewiseNet

variable {α : Type}

/-- A pair of variables, of which `f` is the activation of `b`. -/
structure PiecewisePair where
  /-- The argument. -/
  b : Nat
  /-- The value. -/
  f : Nat
deriving DecidableEq, Repr

/-- The node reads one of the nodes reached so far. -/
def readsReached (a : Arena α) (reached : List NodeId) (id : NodeId) : Bool :=
  (((a.get? id).map Node.references).getD []).any reached.contains

/-- One sweep over nodes: each that reads a reached node is reached. -/
def sweepReached (a : Arena α) : List NodeId → List NodeId → List NodeId
  | [], reached => reached
  | id :: ids, reached =>
    if !reached.contains id && readsReached a reached id then sweepReached a ids (id :: reached)
    else sweepReached a ids reached

/-- Sweeps until nothing new is reached, at most so many times. -/
def reachedAfter (a : Arena α) (nodes : List NodeId) : Nat → List NodeId → List NodeId
  | 0, reached => reached
  | sweeps + 1, reached =>
    let next := sweepReached a nodes reached
    if next.length == reached.length then next else reachedAfter a nodes sweeps next

/-- The members that read an input, directly or through others, the inputs among them. Every sweep
but the last reaches a member more. -/
def reachable (a : Arena α) (q : Query α) : List NodeId :=
  reachedAfter a q.nodes (q.nodes.length + 1) q.inputs

/-- The members that no input reaches and whose bounds coincide, in their order. -/
def syntheticInputs [Scalar α] (a : Arena α) (q : Query α) : List NodeId :=
  let reached := reachable a q
  q.nodes.filter fun id =>
    !reached.contains id && ((a.get? id).bind (·.bounds.fixedValue?)).isSome

/-- The member behind each variable number. -/
abbrev VariableTable := List NodeId

namespace VariableTable

/-- The number of a member. -/
def varOf? (t : VariableTable) (id : NodeId) : Option Nat :=
  List.idxOf? id t

/-- The number of a member that is in the table. -/
def varOf (t : VariableTable) (id : NodeId) : Nat :=
  List.idxOf id t

/-- The member behind a number. -/
def nodeOf? (t : VariableTable) (v : Nat) : Option NodeId :=
  t[v]?

end VariableTable

/-- A query over numbered variables. -/
structure SolverQuery (α : Type) where
  lowerBounds : VarMap α
  upperBounds : VarMap α
  /-- The definitions of the affine members, then the equations of the query. -/
  equations : List (IpqEquation α)
  relus : List PiecewisePair
  /-- The rectifiers marked for a linear relaxation. -/
  relaxedRelus : List PiecewisePair
  abs : List PiecewisePair
  /-- The declared inputs, then the synthetic ones. -/
  inputVars : List Nat
  /-- The number of declared inputs. -/
  realInputs : Nat
  outputVars : List Nat
  /-- The member behind each number. -/
  table : VariableTable

namespace SolverQuery

/-- The number of variables. -/
def variableCount (q : SolverQuery α) : Nat :=
  q.table.length

/-- The values of one end of the bounds, for the variables that have it. -/
def boundsOf (side : Interval α → Option α) (nodes : List (Nat × Node α)) : VarMap α :=
  OrderedMap.ofList (nodes.filterMap fun p => (side p.2.bounds).map fun v => (p.1, v))

/-- The definition of an affine member as an equation. -/
def definitionOf [Scalar α] (t : VariableTable) (v : Nat) (n : Node α) : Option (IpqEquation α) :=
  match n.kind with
  | .affine terms bias =>
    some { comparator := .eq, scalar := -bias,
           addends := terms.map (fun p => (t.varOf p.2, p.1)) ++ [(v, -1)] }
  | _ => none

/-- The pair of a rectifier. -/
def reluOf (t : VariableTable) (v : Nat) (n : Node α) : Option PiecewisePair :=
  match n.kind with
  | .relu input _ => some ⟨t.varOf input, v⟩
  | _ => none

/-- The pair of a rectifier that is marked for a relaxation. -/
def relaxedReluOf (t : VariableTable) (v : Nat) (n : Node α) : Option PiecewisePair :=
  match n.kind with
  | .relu input true => some ⟨t.varOf input, v⟩
  | _ => none

/-- The pair of an absolute value. -/
def absOf (t : VariableTable) (v : Nat) (n : Node α) : Option PiecewisePair :=
  match n.kind with
  | .abs input => some ⟨t.varOf input, v⟩
  | _ => none

/-- An equation of the query over numbered variables. -/
def equationOf (t : VariableTable) (e : Equation α) : IpqEquation α :=
  { comparator := e.comparator, scalar := e.scalar,
    addends := e.terms.map fun p => (t.varOf p.2, p.1) }

/-- The numbered form of a query. -/
def ofQuery [Scalar α] (a : Arena α) (q : Query α) : Except (FileError α) (SolverQuery α) :=
  match q.checkIntegrity a with
  | .error e => .error (.graph e)
  | .ok () =>
    -- Members that are inputs keep the number they have as inputs.
    let t : VariableTable := (q.inputs ++ q.nodes).eraseDups
    let nodes := a.numbered t
    .ok {
      lowerBounds := boundsOf Interval.lower nodes
      upperBounds := boundsOf Interval.upper nodes
      equations := nodes.filterMap (fun p => definitionOf t p.1 p.2) ++
        q.equations.map (equationOf t)
      relus := nodes.filterMap fun p => reluOf t p.1 p.2
      relaxedRelus := nodes.filterMap fun p => relaxedReluOf t p.1 p.2
      abs := nodes.filterMap fun p => absOf t p.1 p.2
      inputVars := q.inputs.map t.varOf ++ (syntheticInputs a q).map t.varOf
      realInputs := q.inputs.length
      outputVars := q.outputs.map t.varOf
      table := t }

/-- The record set of a numbered query. -/
def toIpq (q : SolverQuery α) : IpqFile α where
  variableCount := q.variableCount
  inputs := q.inputVars
  outputs := q.outputVars
  lowerBounds := q.lowerBounds
  upperBounds := q.upperBounds
  equations := q.equations
  constraints := q.relus.map (fun p => .relu p.f p.b) ++ q.abs.map (fun p => .abs p.f p.b)

/-- The values that a witness gives to the members; unknown variables are dropped. -/
def witnessNodes (q : SolverQuery α) (witness : VarMap α) : VarMap α :=
  OrderedMap.ofList
    (witness.entries.filterMap fun e => (q.table.nodeOf? e.1).map fun id => (id, e.2))

end SolverQuery

end PiecewiseNet
