import Ownership.Access
import Ownership.Check.Analysis
import Ownership.Check.Order
import Ownership.Check.Report
import Ownership.Check.Transfer
import Ownership.Cli.Options
import Ownership.Cli.Path
import Ownership.Cli.Render
import Ownership.Cli.Run
import Ownership.Diagnostic
import Ownership.Flow.Borrow
import Ownership.Flow.Loan
import Ownership.Flow.State
import Ownership.Lifetime
import Ownership.Listing.Build
import Ownership.Listing.Error
import Ownership.Listing.Parser
import Ownership.Listing.Token
import Ownership.Listing.Tree
import Ownership.Location
import Ownership.Main
import Ownership.Malformed
import Ownership.Names
import Ownership.Program.Basic
import Ownership.Program.Function
import Ownership.Program.Op
import Ownership.Region.Basic
import Ownership.Region.Liveness
import Ownership.Region.Witness
import Ownership.Registry
import Ownership.Settle
import Ownership.Span
import Ownership.Text.Integer
import Ownership.Text.Json
import Ownership.Text.Printable
import Ownership.Text.Quoted
import Ownership.Types.Copyability
import Ownership.Types.Index
import Ownership.Types.Table
import Ownership.Verify
import Ownership.Violation
import Ownership.WellFormed
import Ownership.Proofs.FlowState
import Ownership.Proofs.Join
import Ownership.Proofs.Access
import Ownership.Proofs.Operations
import Ownership.Proofs.Walk
import Ownership.Proofs.Inside
import Ownership.Proofs.Totality
import Ownership.Proofs.Fixpoint
import Ownership.Proofs.Covers
import Ownership.Proofs.Path
import Ownership.Proofs.Report
import Ownership.Proofs.Acceptance
import Ownership.Proofs.Touch
import Ownership.Proofs.UseState
import Ownership.Proofs.Assignment
import Ownership.Proofs.Overwrite
import Ownership.Proofs.Lenders
import Ownership.Proofs.Steps
import Ownership.Proofs.Granted
import Ownership.Proofs.LoanSource
import Ownership.Proofs.Exclusive
import Ownership.Proofs.Replacement
import Ownership.Proofs.Liveness
import Ownership.Proofs.Thinned
import Ownership.Proofs.LastUse
import Ownership.Proofs.Validation
import Ownership.Proofs.Completion
import Ownership.Proofs.Holdings
import Ownership.Proofs.Owners
import Ownership.Proofs.Holders
import Ownership.Proofs.Agreement
import Ownership.Proofs.Scopes
import Ownership.Proofs.Mirror
import Ownership.Proofs.Pruning
import Ownership.Proofs.PrunedRegions
import Ownership.Proofs.Unreachable
import Ownership.Proofs.Lookups
import Ownership.Proofs.TableOrder
import Ownership.Proofs.TypeExtension
import Ownership.Proofs.Matching
import Ownership.Proofs.Modular
import Ownership.Proofs.Grammar
import Ownership.Proofs.Syntax
import Ownership.Proofs.Reading
import Ownership.Proofs.Splitting
import Ownership.Proofs.Parsing
import Ownership.Proofs.Outlines
import Ownership.Proofs.Coherence
import Ownership.Proofs.Building
import Ownership.Proofs.Outcome
import Ownership.Proofs.TypeOrder
import Ownership.Proofs.ClosedPrograms
import Ownership.Proofs.UsePaths
import Ownership.Proofs.NextUse
import Ownership.Proofs.Rotation
import Ownership.Proofs.Classification
import Ownership.Proofs.DeclaredOrder
import Ownership.Proofs.LifetimeMeet
import Ownership.Proofs.Handover
import Ownership.Proofs.AnonymousLifetimes
import Ownership.Proofs.Introduced
import Ownership.Proofs.ScopeEnd
import Ownership.Proofs.UniqueOwners
import Ownership.Proofs.Refusal
import Ownership.Proofs.Cascade
import Ownership.Proofs.DepthFirst
import Ownership.Proofs.LoopFree
import Ownership.Proofs.FirstImpossible
import Ownership.Proofs.Confinement
import Ownership.Proofs.Registration
import Ownership.Proofs.Unindexed
