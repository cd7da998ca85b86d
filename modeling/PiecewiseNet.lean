import PiecewiseNet.Analysis.Error
import PiecewiseNet.Analysis.Exchange
import PiecewiseNet.Analysis.NeuronOverride
import PiecewiseNet.Analysis.RedundancyTest
import PiecewiseNet.Analysis.Settings
import PiecewiseNet.Analysis.Settings.Printer
import PiecewiseNet.Analysis.Settings.Reader
import PiecewiseNet.Arena
import PiecewiseNet.Clip
import PiecewiseNet.CommandLine.Help
import PiecewiseNet.CommandLine.Options
import PiecewiseNet.CommandLine.Report
import PiecewiseNet.CommandLine.Request
import PiecewiseNet.CommandLine.Run
import PiecewiseNet.Comparison
import PiecewiseNet.Decimal.Binary
import PiecewiseNet.Decimal.Reader
import PiecewiseNet.Decimal.Rounding
import PiecewiseNet.Decimal.Shortest
import PiecewiseNet.Decimal.Style
import PiecewiseNet.Equation
import PiecewiseNet.Evaluation.Error
import PiecewiseNet.Evaluation.Propagation
import PiecewiseNet.Evaluation.System
import PiecewiseNet.Evaluation.Validation
import PiecewiseNet.FileError
import PiecewiseNet.Folder
import PiecewiseNet.GraphError
import PiecewiseNet.Interval
import PiecewiseNet.Ipq.Basic
import PiecewiseNet.Ipq.Printer
import PiecewiseNet.Ipq.Reader
import PiecewiseNet.Ipq.Reconstruction
import PiecewiseNet.Join
import PiecewiseNet.Json.Number
import PiecewiseNet.Json.Reader
import PiecewiseNet.Json.Value
import PiecewiseNet.NameSupply
import PiecewiseNet.Network
import PiecewiseNet.Nnet.Basic
import PiecewiseNet.Nnet.Reader
import PiecewiseNet.Node
import PiecewiseNet.OrderedMap
import PiecewiseNet.Override
import PiecewiseNet.Path
import PiecewiseNet.Proofs.Analysis.Comparison
import PiecewiseNet.Proofs.Analysis.StateCheck
import PiecewiseNet.Proofs.Network.AlteredRuns
import PiecewiseNet.Proofs.Analysis.Overrides
import PiecewiseNet.Proofs.Analysis.Recomputation
import PiecewiseNet.Proofs.Analysis.Soundness
import PiecewiseNet.Proofs.Network.Nesting
import PiecewiseNet.Proofs.Comparison
import PiecewiseNet.Proofs.Dependence
import PiecewiseNet.Proofs.Edits
import PiecewiseNet.Proofs.Evaluation.Feedforward
import PiecewiseNet.Proofs.Evaluation.Forced
import PiecewiseNet.Proofs.Evaluation.Numbering
import PiecewiseNet.Proofs.Evaluation.Seeding
import PiecewiseNet.Proofs.Evaluation.Steps
import PiecewiseNet.Proofs.Network.Agreement
import PiecewiseNet.Proofs.Network.Altered
import PiecewiseNet.Proofs.Network.Checking
import PiecewiseNet.Proofs.Network.Clipping
import PiecewiseNet.Proofs.Network.Copies
import PiecewiseNet.Proofs.Network.Duplication
import PiecewiseNet.Proofs.Network.Gluing
import PiecewiseNet.Proofs.Network.Integrity
import PiecewiseNet.Proofs.Network.JoinedCopies
import PiecewiseNet.Proofs.Network.Joining
import PiecewiseNet.Proofs.Network.Overriding
import PiecewiseNet.Proofs.Network.Places
import PiecewiseNet.Proofs.Network.Reduction
import PiecewiseNet.Proofs.Network.Sharing
import PiecewiseNet.Proofs.Network.Splicing
import PiecewiseNet.Proofs.Network.Trimming
import PiecewiseNet.Proofs.Network.Twins
import PiecewiseNet.Proofs.Network.Whole
import PiecewiseNet.Proofs.QueryMembers
import PiecewiseNet.Query
import PiecewiseNet.Relaxation
import PiecewiseNet.Scalar
import PiecewiseNet.Session
import PiecewiseNet.Shape
import PiecewiseNet.Solution
import PiecewiseNet.Solver.Outcome
import PiecewiseNet.Solver.Query
import PiecewiseNet.StateCheck
import PiecewiseNet.Subspace
import PiecewiseNet.Substitution
import PiecewiseNet.Text.Blank
import PiecewiseNet.Text.Lines
import PiecewiseNet.Text.Numeral
import PiecewiseNet.Text.Scan
import PiecewiseNet.Toml.Moment
import PiecewiseNet.Toml.Number
import PiecewiseNet.Toml.Quoted
import PiecewiseNet.Toml.Reader
import PiecewiseNet.Toml.Value
import PiecewiseNet.Main
import PiecewiseNet.Proofs.Solver.Variables
import PiecewiseNet.Proofs.Evaluation.Acceptance
import PiecewiseNet.Proofs.Solver.Renumbering
import PiecewiseNet.Proofs.Solver.Witness
import PiecewiseNet.Proofs.Text.Lines
import PiecewiseNet.Proofs.Ipq.Reading
import PiecewiseNet.Proofs.Ipq.WellFormed
import PiecewiseNet.Proofs.Ipq.RoundTrip
import PiecewiseNet.Proofs.Ipq.Passes
import PiecewiseNet.Proofs.Ipq.Rebuilding
import PiecewiseNet.Proofs.Ipq.Solutions
import PiecewiseNet.Proofs.Ipq.Layering
import PiecewiseNet.Proofs.Ipq.KeptRecords
import PiecewiseNet.Proofs.Analysis.Independence
import PiecewiseNet.Proofs.Nnet.Evaluation
import PiecewiseNet.Proofs.Nnet.RoundTrip
import PiecewiseNet.Proofs.Analysis.Exporting
import PiecewiseNet.Proofs.Lowering
import PiecewiseNet.Proofs.Solver.Copies
import PiecewiseNet.Proofs.Network.ClippedValues
import PiecewiseNet.Proofs.Network.OverriddenValues
import PiecewiseNet.Proofs.Network.WholeCopies
import PiecewiseNet.Proofs.Network.ClippedOverrides
import PiecewiseNet.Proofs.Analysis.AcceptedOverrides
import PiecewiseNet.Proofs.Analysis.Preparation
import PiecewiseNet.Proofs.Analysis.ActiveOverrides
import PiecewiseNet.Proofs.Ipq.OutputOrder
import PiecewiseNet.Proofs.Relaxation.Line
import PiecewiseNet.Proofs.Relaxation.Runs
import PiecewiseNet.Proofs.Subspace.Slices
import PiecewiseNet.Proofs.Subspace.Rounds
import PiecewiseNet.Proofs.Subspace.Cover
import PiecewiseNet.Proofs.FailedEdits
import PiecewiseNet.Proofs.Subspace.Failures
import PiecewiseNet.Proofs.Evaluation.Members
import PiecewiseNet.Proofs.Evaluation.OtherInputs
import PiecewiseNet.Proofs.Evaluation.Completion
import PiecewiseNet.Proofs.Network.Determination
import PiecewiseNet.Proofs.Solver.Reachability
import PiecewiseNet.Proofs.Solver.InputVariables
import PiecewiseNet.Proofs.Narrowing
import PiecewiseNet.Proofs.Labels.Naming
import PiecewiseNet.Proofs.Labels.Imports
import PiecewiseNet.Proofs.Ipq.VariableCount
import PiecewiseNet.Proofs.Text.Spelling
import PiecewiseNet.Proofs.Nnet.Rows
import PiecewiseNet.Proofs.Nnet.Layout
import PiecewiseNet.Proofs.Evaluation.Termination
import PiecewiseNet.Proofs.Ipq.Attempts
import PiecewiseNet.Proofs.Ipq.Termination
import PiecewiseNet.Proofs.Nnet.Indexing
import PiecewiseNet.Proofs.Nnet.Success
import PiecewiseNet.Proofs.Refusals
import PiecewiseNet.Proofs.Network.Refusals
import PiecewiseNet.Proofs.Network.Indices
import PiecewiseNet.Proofs.Analysis.Indices
