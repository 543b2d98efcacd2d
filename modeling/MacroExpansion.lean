import MacroExpansion.CommandLine.Arguments
import MacroExpansion.CommandLine.Diff
import MacroExpansion.CommandLine.Run
import MacroExpansion.Context
import MacroExpansion.Expansion.Step
import MacroExpansion.Expansion.Tree
import MacroExpansion.Fault
import MacroExpansion.Files.Basic
import MacroExpansion.Handler
import MacroExpansion.Json.Decimal
import MacroExpansion.Json.Reader
import MacroExpansion.Json.Scan
import MacroExpansion.Json.Skim
import MacroExpansion.Json.Write
import MacroExpansion.Load
import MacroExpansion.Main
import MacroExpansion.Name.Basic
import MacroExpansion.Name.Decode
import MacroExpansion.Operation
import MacroExpansion.Proofs.Association
import MacroExpansion.Proofs.CommandLine.Agreement
import MacroExpansion.Proofs.Expansion.Composition
import MacroExpansion.Proofs.Expansion.Derivation
import MacroExpansion.Proofs.Expansion.Failure
import MacroExpansion.Proofs.Expansion.FixedPoint
import MacroExpansion.Proofs.Expansion.Hygiene
import MacroExpansion.Proofs.Expansion.Invariant
import MacroExpansion.Proofs.Expansion.Limit
import MacroExpansion.Proofs.Expansion.Positions
import MacroExpansion.Proofs.Expansion.Reach
import MacroExpansion.Proofs.Expansion.Renaming
import MacroExpansion.Proofs.Expansion.Replay
import MacroExpansion.Proofs.Expansion.Simulation
import MacroExpansion.Proofs.Expansion.Spans
import MacroExpansion.Proofs.Expansion.Step
import MacroExpansion.Proofs.Expansion.Termination
import MacroExpansion.Proofs.Files.Walk
import MacroExpansion.Proofs.Handler.Activations
import MacroExpansion.Proofs.Handler.Program
import MacroExpansion.Proofs.Json.Nesting
import MacroExpansion.Proofs.Json.Reader
import MacroExpansion.Proofs.Json.Skim
import MacroExpansion.Proofs.Load.Rules
import MacroExpansion.Proofs.Name.History
import MacroExpansion.Proofs.Name.Numeral
import MacroExpansion.Proofs.Name.Path
import MacroExpansion.Proofs.Name.RoundTrip
import MacroExpansion.Proofs.Name.Scan
import MacroExpansion.Proofs.Name.Spelling
import MacroExpansion.Proofs.Name.Stamp
import MacroExpansion.Proofs.Name.Tail
import MacroExpansion.Proofs.Registry.History
import MacroExpansion.Proofs.Registry.Lookup
import MacroExpansion.Proofs.Registry.Views
import MacroExpansion.Proofs.Result
import MacroExpansion.Proofs.Rule.Alike
import MacroExpansion.Proofs.Rule.Outcome
import MacroExpansion.Proofs.Session.Scopes
import MacroExpansion.Proofs.Template.Alike
import MacroExpansion.Proofs.Template.Holes
import MacroExpansion.Proofs.Template.Idents
import MacroExpansion.Proofs.Template.Instance
import MacroExpansion.Proofs.Template.Parts
import MacroExpansion.Proofs.Template.Pieces
import MacroExpansion.Proofs.Template.Positions
import MacroExpansion.Proofs.Template.Refill
import MacroExpansion.Proofs.Text.Occurrence
import MacroExpansion.Proofs.Text.Position
import MacroExpansion.Proofs.Tree.Alike
import MacroExpansion.Proofs.Tree.Json
import MacroExpansion.Proofs.Tree.Parts
import MacroExpansion.Proofs.Tree.Skeleton
import MacroExpansion.Registry
import MacroExpansion.Report
import MacroExpansion.Rule.Basic
import MacroExpansion.Rule.Json
import MacroExpansion.Scope
import MacroExpansion.Script
import MacroExpansion.Session
import MacroExpansion.Settings
import MacroExpansion.Span
import MacroExpansion.Template.Fill
import MacroExpansion.Template.Match
import MacroExpansion.Text.Position
import MacroExpansion.Text.Split
import MacroExpansion.Tree.Basic
import MacroExpansion.Tree.Json
import MacroExpansion.Tree.Render
