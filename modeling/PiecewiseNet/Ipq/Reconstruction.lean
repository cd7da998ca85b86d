import PiecewiseNet.Ipq.Basic
import PiecewiseNet.Network
import PiecewiseNet.Session

/-!
# Networks from query files

A query file over equations and rectifiers is rebuilt as a network with alternating affine and
rectifier layers. The inputs are the declared ones and the further variables whose bounds coincide.
An equation with one variable that is not defined yet defines it; a rectifier whose input is
defined defines its output. Each pass over the equations is one affine layer, each pass over the
constraints one rectifier layer, and the last affine layer is the one that no rectifier reads.

In strict mode every equation must be an equality that defines its variable with coefficient minus
one, and the declared outputs must be the variables of the last affine layer.

## Main definitions

- `IpqNetwork`: a rebuilt network with the node of each variable.
- `IpqFile.affineLayer`, `IpqFile.reluLayer`: one pass over the equations or the constraints.
- `IpqFile.buildLayers`: the alternating passes.
- `IpqFile.rebuild`: the network of a file.
-/

namespace PiecewiseNet

/-- A network rebuilt from a query file. -/
structure IpqNetwork where
  network : Network
  /-- The number of declared inputs; the first layer may hold more. -/
  declaredInputs : Nat
  /-- The node of each variable. -/
  variableNodes : VarMap NodeId

namespace IpqFile

variable {α : Type} [Scalar α]

/-- Adds one input node for each variable, from index `i` on. -/
def inputLayer (stem : String) :
    Nat → List Nat → VarMap NodeId → Edit (FileError α) α (List NodeId × VarMap NodeId)
  | _, [], vars => pure ([], vars)
  | i, v :: vs, vars => do
    let id ← Edit.push { kind := .plain, label := some (stem ++ "00_" ++ labelIndex i) }
    let (ids, vars) ← inputLayer stem (i + 1) vs (vars.insert v id)
    return (id :: ids, vars)

/-- The addends of an equation whose variables have no node yet. -/
def freshAddends (vars : VarMap NodeId) (e : IpqEquation α) : List (Nat × α) :=
  e.addends.filter fun a => !vars.contains a.1

/-- The definition of the variable `v` by an equation in which it has coefficient `c`: the sum of
the other addends, each over the opposite of `c`, and the right-hand side over `c`. -/
def definition (vars : VarMap NodeId) (e : IpqEquation α) (v : Nat) (c : α) : NodeKind α :=
  .affine
    ((e.addends.filter (·.1 != v)).map fun a => (-a.2 / c, (vars.get? a.1).getD 0))
    (e.scalar / c)

/-- Adds the nodes of one affine layer: every equation with exactly one fresh addend defines its
variable. The nodes defined in this pass are not used in it. -/
def affineLayer (strict : Bool) (stem : String) (vars : VarMap NodeId) :
    Nat → List (IpqEquation α) → VarMap NodeId → Edit (FileError α) α (VarMap NodeId × List NodeId)
  | _, [], defined => pure (defined, [])
  | i, e :: es, defined => do
    if e.comparator ≠ .eq then
      if strict then throw (.inequality i) else affineLayer strict stem vars (i + 1) es defined
    else
      match freshAddends vars e with
      | [(v, c)] =>
        if strict && !(c == -1) then
          throw (.wrongCoefficient i v c)
        else if c == 0 then
          throw (.degenerateEquation i v)
        else if defined.contains v then
          throw (.definedTwice v)
        else
          let id ← Edit.push
            { kind := definition vars e v c, label := some (stem ++ labelIndex defined.size) }
          -- The variable stays out of `vars` until the pass is over.
          let (defined, ids) ← affineLayer strict stem vars (i + 1) es (defined.insert v id)
          return (defined, id :: ids)
      | _ => affineLayer strict stem vars (i + 1) es defined

/-- Adds the nodes of one rectifier layer: every rectifier with a defined input and a fresh output
defines its output. Each node comes with the node that it reads. -/
def reluLayer (stem : String) (vars : VarMap NodeId) :
    List IpqConstraint → VarMap NodeId →
      Edit (FileError α) α (VarMap NodeId × List (NodeId × NodeId))
  | [], defined => pure (defined, [])
  | .relu f b :: cs, defined => do
    match vars.get? b with
    | none => reluLayer stem vars cs defined
    | some input =>
      if vars.contains f || defined.contains f then
        reluLayer stem vars cs defined
      else
        let id ← Edit.push
          { kind := .relu input false, label := some (stem ++ labelIndex defined.size) }
        let (defined, ids) ← reluLayer stem vars cs (defined.insert f id)
        return (defined, (input, id) :: ids)
  | _ :: cs, defined => reluLayer stem vars cs defined

/-- The layers behind the inputs. -/
structure Passes where
  /-- Each affine layer that a rectifier layer follows, with that layer. -/
  hidden : List (List NodeId × List (NodeId × NodeId))
  /-- The last affine layer. -/
  last : List NodeId
  /-- The node of each variable. -/
  variableNodes : VarMap NodeId

/-- Adds affine and rectifier layers in turn, from layer `index` on, until no rectifier is left to
define. Every pass but the last uses up a rectifier, so a round more than there are rectifiers
suffices. -/
def buildLayers (f : IpqFile α) (strict : Bool) (stem : String) :
    Nat → Nat → VarMap NodeId → Edit (FileError α) α Passes
  | 0, _, vars => pure ⟨[], [], vars⟩
  | rounds + 1, index, vars => do
    let (defined, affine) ← affineLayer strict (stem ++ labelIndex index ++ "_w") vars 0
      f.equations OrderedMap.empty
    if affine.isEmpty then
      throw (.emptyLayer index)
    else
      let vars := vars.insertAll defined.entries
      let (defined, relus) ← reluLayer (stem ++ labelIndex (index + 1) ++ "_r") vars f.constraints
        OrderedMap.empty
      let vars := vars.insertAll defined.entries
      if relus.isEmpty then
        return ⟨[], affine, vars⟩
      else
        let rest ← buildLayers f strict stem rounds (index + 2) vars
        return { rest with hidden := (affine, relus) :: rest.hidden }

/-- The declared outputs are distinct nodes and exactly those of the last affine layer. -/
def outputsAreLast (f : IpqFile α) (p : Passes) : Bool :=
  -- A repeated or undefined output makes the list shorter.
  let outputs := (f.outputs.filterMap p.variableNodes.get?).eraseDups
  outputs.length == f.outputs.length && outputs.all p.last.contains && p.last.all outputs.contains

/-- The first rectifier with a variable that no layer defines. -/
def looseRelu? (vars : VarMap NodeId) : List IpqConstraint → Option (Nat × Nat)
  | [] => none
  | .relu f b :: cs =>
    if vars.contains f && vars.contains b then looseRelu? vars cs else some (b, f)
  | _ :: cs => looseRelu? vars cs

/-- The first equation, from number `i` on, with a variable that no layer defines. -/
def looseEquation? (vars : VarMap NodeId) : Nat → List (IpqEquation α) → Option (Nat × Nat)
  | _, [] => none
  | i, e :: es =>
    match e.addends.find? fun a => !vars.contains a.1 with
    | some a => some (i, a.1)
    | none => looseEquation? vars (i + 1) es

/-- Narrows the node of each variable to the bounds of the file. -/
def limitAll (f : IpqFile α) : List (Nat × NodeId) → Edit (FileError α) α Unit
  | [] => pure ()
  | (v, id) :: rest => do
    Edit.ofGraph (Edit.limit id (f.lowerBounds.get? v) (f.upperBounds.get? v))
    limitAll f rest

/-- The neurons of one hidden layer: every rectifier behind the affine node it reads, then the
affine nodes that no rectifier reads. -/
def pairLayer (a : Arena α) (affine : List NodeId) (relus : List (NodeId × NodeId)) :
    Except (FileError α) Layer :=
  match relus.find? fun r => !affine.contains r.1 with
  | some r => .error (.skippedLayer (a.name r.2))
  | none =>
    .ok (relus.map (fun r => [r.1, r.2]) ++
      (affine.filter fun id => !(relus.map (·.1)).contains id).map ([·]))

/-- The layers of the network. -/
def pairLayers (a : Arena α) (inputs : List NodeId) (p : Passes) :
    Except (FileError α) (List Layer) := do
  let hidden ← p.hidden.mapM fun h => pairLayer a h.1 h.2
  return [inputs.map ([·])] ++ hidden ++ [p.last.map ([·])]

/-- Adds the nodes of the network, with labels that start with `stem`. -/
def rebuildWith (f : IpqFile α) (strict : Bool) (stem : String) :
    Edit (FileError α) α IpqNetwork := do
  let synthetic := f.fixedVariables.filter fun v => !f.inputs.contains v
  let (inputs, vars) ← inputLayer stem 0 (f.inputs ++ synthetic) OrderedMap.empty
  let passes ← buildLayers f strict stem (f.constraints.length + 1) 1 vars
  if strict && !f.outputsAreLast passes then
    throw .wrongOutputs
  match looseRelu? passes.variableNodes f.constraints with
  | some (b, r) => throw (.looseRelu b r)
  | none =>
    match looseEquation? passes.variableNodes 0 f.equations with
    | some (i, v) => throw (.looseEquation i v)
    | none =>
      -- Bounds come last: a file that is refused before has changed no node's bounds.
      limitAll f passes.variableNodes.entries
      let layers ← Edit.reading fun a => pairLayers a inputs passes
      let network ← Edit.ofGraph (Edit.reading (Network.new layers))
      return { network, declaredInputs := f.inputs.length, variableNodes := passes.variableNodes }

/-- Rebuilds the network of a file in a session, under a label prefix of its own. A file with other
constraints than rectifiers leaves the session alone. -/
def rebuild (f : IpqFile α) (strict : Bool) (s : Session α) :
    Except (FileError α) IpqNetwork × Session α :=
  match f.constraints.find? fun | .relu _ _ => false | _ => true with
  | some c => (.error (.unsupportedConstraint c.kindName), s)
  | none =>
    let (stem, names) := s.names.ipq
    let (r, a) := (f.rebuildWith strict stem).run s.arena
    (r, ⟨a, names⟩)

end IpqFile

end PiecewiseNet
