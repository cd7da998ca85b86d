import PiecewiseNet.Analysis.RedundancyTest
import PiecewiseNet.Analysis.Settings.Reader
import PiecewiseNet.CommandLine.Help
import PiecewiseNet.CommandLine.Report
import PiecewiseNet.CommandLine.Request
import PiecewiseNet.Evaluation.Validation
import PiecewiseNet.Folder
import PiecewiseNet.Ipq.Reader
import PiecewiseNet.Ipq.Reconstruction
import PiecewiseNet.Nnet.Reader
import PiecewiseNet.Solver.Query
import PiecewiseNet.Subspace

/-!
# Running commands

A command reads texts and either prints something or writes one file. What it does is a function of
the texts it can read; only carrying it out takes a file system.

## Main definitions

- `Failure`: what a failed command reports.
- `Outcome`: what a program prints and its exit code.
- `Action`: what a command does in the end.
- `Command.run`: the action of a command.
- `act`: the action of a command line.
- `Action.perform`: carries out an action on a working folder.
-/

namespace PiecewiseNet.CommandLine

/-! ## Failures -/

/-- What a failed command reports. -/
structure Failure where
  /-- What failed. -/
  message : String
  /-- What was behind it. -/
  cause : Option String := none

namespace Failure

/-- The failure to use a file. -/
def ofFile (e : FileError Float) : Failure :=
  ⟨e.message, e.cause?⟩

/-- The failure to evaluate. -/
def ofEvaluation (e : EvalError Float) : Failure :=
  ⟨e.message, e.cause?⟩

/-- The failure to build a query. -/
def ofAnalysis (e : AnalysisError Float) : Failure :=
  ⟨e.message, e.cause?⟩

/-- The failure to build a graph. -/
def ofGraph (e : GraphError Float) : Failure :=
  ⟨e.message, none⟩

/-- The report. Every line of the cause is indented. -/
def report (f : Failure) : String :=
  let cause :=
    match f.cause with
    | some c => "\n\nCaused by:\n    " ++ String.intercalate "\n    " (c.splitOn "\n")
    | none => ""
  "Error: " ++ f.message ++ cause ++ "\n"

end Failure

/-- What a program prints, and its exit code. -/
structure Outcome where
  /-- Zero for success, one for a failure, two for a misused command line. -/
  exitCode : Nat
  /-- What is printed. -/
  output : String := ""
  /-- What is reported. -/
  errors : String := ""

/-- The outcome of a failure. -/
def Failure.outcome (f : Failure) : Outcome :=
  { exitCode := 1, errors := f.report }

/-- What a command does in the end. -/
inductive Action where
  /-- It ends. -/
  | finish (o : Outcome)
  /-- It writes a text to a path and reports it. -/
  | write (path text note : String)

/-- The action of printing a text. -/
def Action.print (s : String) : Action :=
  .finish { exitCode := 0, output := s }

/-- The outcome of writing a file. -/
def writeOutcome (path note : String) : Except PathFault Unit → Outcome
  | .ok () => { exitCode := 0, errors := note }
  | .error fault => Failure.outcome ⟨"failed to write '" ++ path ++ "'", some fault.message⟩

/-- Carries out an action on a working folder. -/
def Action.perform (a : Action) (f : Folder) : Outcome × Folder :=
  match a with
  | .finish o => (o, f)
  | .write path text note =>
    match f.write path text with
    | .ok w =>
      let o := writeOutcome path note (.ok ())
      ({ o with output := w.output ++ o.output, errors := w.errors ++ o.errors }, w.folder)
    | .error fault => (writeOutcome path note (.error fault), f)

/-! ## Commands -/

/-- How texts are read. -/
abbrev Files := String → Except PathFault String

/-- Steps of a command on an arena. -/
abbrev Run := Edit Failure Float

/-- A step that may fail. -/
def failing {ε β : Type} (f : ε → Failure) (e : Except ε β) : Run β :=
  match e with
  | .ok v => pure v
  | .error e => throw (f e)

/-- A change to the arena. -/
def changing {ε β : Type} (f : ε → Failure) (e : Edit ε Float β) : Run β :=
  ExceptT.adapt f e

/-- The settings at a path, or the standard ones. -/
def loadSettings (files : Files) : Option String → Except Failure (Settings Float)
  | none => .ok Settings.standard
  | some path =>
    let settings : Except (AnalysisError Float) (Settings Float) :=
      match files path with
      | .error fault => .error (.settings (.noFile path fault))
      | .ok text => Settings.parse text
    match settings with
    | .ok s => .ok s
    | .error e => .error ⟨"failed to load config '" ++ path ++ "'", some e.message⟩

/-- The formats of network files. -/
inductive NetworkFormat where
  | nnet
  /-- A query whose equations and rectifiers form layers. -/
  | ipq

/-- The format that the name of a file tells. -/
def NetworkFormat.ofPath? (path : String) : Option NetworkFormat :=
  match Path.extension? path with
  | some "nnet" => some .nnet
  | some "ipq" => some .ipq
  | _ => none

/-- The network that a text holds, and the session in which it was built. -/
def NetworkFormat.load (text : String) :
    NetworkFormat → Except (FileError Float) Network × Session Float
  | .nnet => NnetFile.importText text {}
  | .ipq =>
    match IpqFile.parse text with
    | .error e => (.error e, {})
    | .ok f =>
      let (net, s) := f.rebuild true {}
      ((·.network) <$> net, s)

/-- The network at a path. -/
def loadNetwork (files : Files) (path : String) : Run Network := do
  match NetworkFormat.ofPath? path with
  | none => throw ⟨"unrecognised network file '" ++ path ++ "': expected .nnet or .ipq", none⟩
  | some format =>
    match files path with
    | .error fault => throw (.ofFile (.unreadable path fault))
    | .ok text =>
      let (net, s) := format.load text
      -- The nodes stay where they are even if the network is refused.
      set s.arena
      failing .ofFile net

/-- The outputs of a network at a point. -/
def evaluateAt (net : Network) (input : List Float) : Run Evaluation := do
  let q ← failing (Failure.ofGraph) net.toQuery
  let s ← failing .ofEvaluation (ConstraintSystem.ofQuery (← Edit.arena) q)
  let (valid, v) ← failing .ofEvaluation (s.evaluateChecked input)
  match s.outputValues? v with
  | some outputs => return { outputs, valid }
  | none => throw ⟨"some outputs could not be derived from the inputs", none⟩

/-- A report as JSON or as a table. -/
def shown (json : Bool) (value : Json.Value) (table : String) : Action :=
  .print (if json then value.pretty ++ "\n" else table)

/-- The range of a query: that of the settings with the given fields laid over it, or none if no
field is given. -/
def rangeOf (o : QueryOptions) (s : Settings Float) : Option ClipRange :=
  if o.firstLayer.isSome || o.firstCut.isSome || o.lastLayer.isSome || o.lastCut.isSome then
    let base := s.clip.getD {}
    some {
      firstLayer := o.firstLayer.getD base.firstLayer
      firstCut := o.firstCut.getD base.firstCut
      lastLayer := o.lastLayer.or base.lastLayer
      lastCut := o.lastCut.getD base.lastCut }
  else
    none

/-- The query of a kind. -/
def QueryKind.build (t : RedundancyTest Float) (range : Option ClipRange) :
    QueryKind → Edit (AnalysisError Float) Float (Query Float)
  | .exact overrides direction output => t.comparedExact overrides direction output range
  | .minimum overrides output counter => t.comparedMinimum overrides output counter range
  | .joined overrides => t.joined overrides range
  | .state layer neuron phase => t.stateCheck layer neuron phase range

/-- The query of a command, restricted to a part of the input box. -/
def buildQuery (o : QueryOptions) (kind : QueryKind) (net : Network) (s : Settings Float) :
    Run (Query Float) := do
  let range := rangeOf o s
  let t ← failing .ofAnalysis (RedundancyTest.ofSettings net s)
  let q ← changing .ofAnalysis (kind.build t range)
  match o.subspace with
  | none => return q
  | some digits =>
    changing (fun e => ⟨"invalid subspace '" ++ digits ++ "'", some e.message⟩)
      (applySubspace q digits o.splits)
    return q

/-- What is reported about a written query. -/
def writeNote (path : String) (q : SolverQuery Float) : String :=
  "  wrote " ++ path ++ " (" ++ toString q.variableCount ++ " variables, " ++
    toString q.equations.length ++ " equations, " ++ toString q.relus.length ++ " relus)\n"

/-- The action of a command. -/
def Command.run (files : Files) (s : Settings Float) : Command → Run Action
  | .inspect path json => do
    let net ← loadNetwork files path
    let r := NetworkReport.ofNetwork (← Edit.arena) net
    return shown json r.toJson (r.table path)
  | .evaluate path input overrides json => do
    let net ← loadNetwork files path
    let base ← evaluateAt net input
    let altered ←
      if overrides.isEmpty then
        pure none
      else do
        let t ← failing .ofAnalysis (RedundancyTest.ofSettings net s)
        let net ← changing .ofAnalysis (t.modified overrides none)
        some <$> evaluateAt net input
    let r : EvaluationReport := { input, base, altered }
    return shown json r.toJson r.table
  | .query options kind => do
    let net ← loadNetwork files options.network
    let q ← buildQuery options kind net s
    let solverQuery ← failing .ofFile (SolverQuery.ofQuery (← Edit.arena) q)
    let text := solverQuery.toIpq.text
    match options.out with
    | some path => return .write path text (writeNote path solverQuery)
    | none => return .print text

/-- The action of a command with the settings at a path. -/
def Command.act (files : Files) (config : Option String) (c : Command) : Action :=
  match loadSettings files config with
  | .error f => .finish f.outcome
  | .ok s =>
    match (c.run files s).run Arena.empty with
    | (.ok a, _) => a
    | (.error f, _) => .finish f.outcome

/-- The action of a command line. -/
def act (files : Files) (args : List String) : Action :=
  match Request.ofArguments? args with
  | none => .finish { exitCode := 2, errors := misuse }
  | some .version => .print version
  | some (.help page) => .print (helpPage page)
  | some (.run config command) => command.act files config

/-- The paths that a command line reads. -/
def readPaths (args : List String) : List String :=
  match Request.ofArguments? args with
  | some (.run config command) =>
    let network :=
      match command with
      | .inspect path _ => path
      | .evaluate path _ _ _ => path
      | .query o _ => o.network
    config.toList ++ [network]
  | _ => []

end PiecewiseNet.CommandLine
