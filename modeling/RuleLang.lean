import RuleLang.CommandLine.Program
import RuleLang.Main
import RuleLang.Proofs.Success
import RuleLang.Proofs.Agreement
import RuleLang.Proofs.Value.Texts
import RuleLang.Proofs.Number.Integers
import RuleLang.Proofs.Number.Characters
import RuleLang.Proofs.Value.Document
import RuleLang.Proofs.Schema.Document
import RuleLang.Proofs.Schema.Texts
import RuleLang.Proofs.Node.Induction
import RuleLang.Proofs.Node.Positions
import RuleLang.Proofs.Node.Names
import RuleLang.Proofs.Node.Unmarked
import RuleLang.Proofs.Node.Texts
import RuleLang.Proofs.Node.Document
import RuleLang.Proofs.Evaluation.Outcome
import RuleLang.Proofs.Evaluation.Verdict
import RuleLang.Proofs.Evaluation.Answers
import RuleLang.Proofs.Evaluation.Order
import RuleLang.Proofs.Evaluation.ShortCircuit
import RuleLang.Proofs.Optimizer.Rules
import RuleLang.Proofs.Optimizer.Settled
import RuleLang.Proofs.Optimizer.Names
import RuleLang.Proofs.Optimizer.Visits
import RuleLang.Proofs.Optimizer.Faults
import RuleLang.Proofs.Optimizer.Reports
import RuleLang.Proofs.Optimizer.Levels
import RuleLang.Proofs.Optimizer.FixedPoint
import RuleLang.Proofs.Optimizer.Nesting
import RuleLang.Proofs.Optimizer.Knowledge
import RuleLang.Proofs.Optimizer.Cost
import RuleLang.Proofs.Optimizer.NormalForm
import RuleLang.Proofs.Optimizer.Mirror
import RuleLang.Proofs.Optimizer.Estimates
import RuleLang.Proofs.Engine.Registration
import RuleLang.Proofs.Engine.Values
import RuleLang.Proofs.Engine.Soundness
import RuleLang.Proofs.Engine.Chains
import RuleLang.Proofs.Engine.Twins
import RuleLang.Proofs.Engine.Switches
import RuleLang.Proofs.Sql.Place
import RuleLang.Proofs.Sql.Closed
import RuleLang.Proofs.Sql.Invariant
import RuleLang.Proofs.Sql.Closure
import RuleLang.Proofs.Sql.Clauses
import RuleLang.Proofs.Sql.Token
import RuleLang.Proofs.Sql.Rendering
import RuleLang.Proofs.Sql.Injection
import RuleLang.Proofs.Feature.Aggregate
import RuleLang.Proofs.Evaluation.Failure
import RuleLang.Proofs.Evaluation.Schedule
import RuleLang.Proofs.Evaluation.Interleaving
import RuleLang.Proofs.Evaluation.Watching
import RuleLang.Proofs.Evaluation.Turns
import RuleLang.Proofs.Evaluation.Log
import RuleLang.Proofs.Evaluation.Trace
import RuleLang.Proofs.Evaluation.Observed
import RuleLang.Proofs.Evaluation.Projection
import RuleLang.Proofs.Evaluation.Effects
import RuleLang.Proofs.Engine.Failure
import RuleLang.Proofs.Engine.Paths
import RuleLang.Proofs.Engine.Sequence
import RuleLang.Proofs.Engine.Building
import RuleLang.Proofs.Sql.Column
import RuleLang.Proofs.Sql.Grouping
import RuleLang.Proofs.Sql.Pieces
import RuleLang.Proofs.Sql.Enclosure
import RuleLang.Proofs.Sql.Completeness
import RuleLang.Proofs.Sql.Elements
import RuleLang.Proofs.Number.Signs
import RuleLang.Proofs.Sql.Comment
import RuleLang.Proofs.Sql.DoubledMinus
import RuleLang.Proofs.Feature.Optional
import RuleLang.Proofs.Optimizer.Shrinking
import RuleLang.Proofs.Engine.Composition
import RuleLang.Proofs.Evaluation.Fanout
import RuleLang.Proofs.Value.Relations
import RuleLang.Proofs.Feature.Classifier
import RuleLang.Proofs.Value.Numeric
import RuleLang.Proofs.Value.Words
import RuleLang.Proofs.Spelling
