import Napitia.Lib.Effect
import Napitia.Lib.Walk
import Napitia.Lib.Components
import Napitia.Lib.DepthFirst
import Napitia.Lib.Loops
import Napitia.Lib.Memo
import Napitia.Lib.Worklist
import Napitia.Lib.Verdict
import Napitia.Lib.Log
import Napitia.Lib.Always
import Napitia.Lib.Ranks
import Napitia.Types
import Napitia.Lexer.Numbers
import Napitia.Lexer.Token
import Napitia.Lexer.Scanner
import Napitia.Lexer.Progress
import Napitia.Lexer.Tiling
import Napitia.Lib.Offsets
import Napitia.Source.Location
import Napitia.Lib.Kahn
import Napitia.Lib.CycleSearch
import Napitia.Project.ModulePath
import Napitia.Project.Ordering
import Napitia.Hir.BareCases
import Napitia.Hir.Lexical
import Napitia.Hir.PublicApi
import Napitia.Lexer.Respacing
import Napitia.Lib.Precedence
import Napitia.Parser.Syntax
import Napitia.Parser.State
import Napitia.Parser.Expression
import Napitia.Parser.Operators
import Napitia.Parser.Operands
import Napitia.Parser.Climbing
import Napitia.Parser.Restriction
import Napitia.Substitution
import Napitia.Nir
import Napitia.Verify.Checks
import Napitia.Verify.Acceptance
import Napitia.Verify.Provenance
import Napitia.Typeck.Exhaustive
import Napitia.Typeck.Usefulness
import Napitia.Typeck.Witness
import Napitia.Typeck.DepthLimit
import Napitia.Typeck.Capability
import Napitia.Typeck.Coherence
import Napitia.Typeck.Cycles
import Napitia.Typeck.Layout
import Napitia.Typeck.CycleOrder
import Napitia.Typeck.Affine
import Napitia.Resourceck.ArmsAgree
import Napitia.Resourceck.Affine
import Napitia.Resourceck.AffineReturns
import Napitia.Verify.Affine
import Napitia.Verify.Observations
import Napitia.Verify.Passage
import Napitia.Verify.ObservationSafety
import Napitia.Typeck.Unify
import Napitia.Typeck.Unification
import Napitia.Typeck.MostGeneral
import Napitia.Lower.Decision
import Napitia.Hir
import Napitia.Typeck.Outcomes
import Napitia.Lower.Matrix
import Napitia.Lower.Coverage
import Napitia.Interpreter.Table
import Napitia.Interpreter.Shape
import Napitia.Interpreter.Plan
import Napitia.Interpreter.Ownership
import Napitia.Interpreter.Run
import Napitia.Interpreter.TableLaws
import Napitia.Interpreter.Atomicity
import Napitia.Interpreter.Graph
import Napitia.Interpreter.Effects
import Napitia.Interpreter.Logic
import Napitia.Interpreter.Walks
import Napitia.Interpreter.Paths
import Napitia.Interpreter.Views
import Napitia.Interpreter.Leases
import Napitia.Interpreter.Frozen
import Napitia.Interpreter.Declarations
import Napitia.Verify.Outcomes
import Napitia.Verify.RaiseSafety
import Napitia.Verify.Dominance
import Napitia.Verify.ForwardFacts
import Napitia.Verify.Initialization
import Napitia.Verify.DropState
import Napitia.Verify.Refinement
import Napitia.Verify.CaseSafety
import Napitia.Lib.Assoc
import Napitia.Lib.Prefixes
import Napitia.Lib.Stateful
import Napitia.Lib.Dominance
import Napitia.Hir.Body
import Napitia.Hir.Declarations
import Napitia.Resourceck.State
import Napitia.Resourceck.Places
import Napitia.Resourceck.DropTargets
import Napitia.Resourceck.MixedAliases
import Napitia.Resourceck.VisitRule
import Napitia.Resourceck.Unrestricted
import Napitia.Resourceck.ObservationScopes
import Napitia.Resourceck.Joins
import Napitia.Resourceck.JoinSoundness
import Napitia.Resourceck.Uses
import Napitia.Resourceck.Reassignment
import Napitia.Resourceck.Flow
import Napitia.Resourceck.Growth
import Napitia.Resourceck.Visits
import Napitia.Lib.Ledger
import Napitia.Resourceck.WholeUses
import Napitia.Resourceck.Scopes
import Napitia.Resourceck.Plans
import Napitia.Resourceck.PlanWalk
import Napitia.Resourceck.KeptPlans
import Napitia.Interpreter.Flow
import Napitia.Interpreter.Parts
import Napitia.Interpreter.Destruction
import Napitia.Interpreter.Observers
import Napitia.Interpreter.Discipline
import Napitia.Lower.Builder
import Napitia.Lower.Selection
import Napitia.Lower.Placement
import Napitia.Lower.Taking
import Napitia.Lower.Execution
import Napitia.Lower.Claims
import Napitia.Lower.Affine
import Napitia.Lower.Prologue
import Napitia.Lower.FirstMatch
import Napitia.Lower.Decomposition
import Napitia.Affinity
import Napitia.Typeck.Evidence
import Napitia.Typeck.History
import Napitia.Typeck.HeadOverlap
import Napitia.Typeck.HeadSwap
import Napitia.Lower.Context
import Napitia.Lower.Constructs
import Napitia.Lower.Branches
import Napitia.Lower.Handlers
import Napitia.Lower.Statements
import Napitia.Lower.Body
import Napitia.Hir.Observations
import Napitia.Lower.Leaves
import Napitia.Lower.Trail
import Napitia.Lower.Landing
import Napitia.Lower.Pieces
import Napitia.Lower.RecordLiterals
import Napitia.Lower.Literals
import Napitia.Lower.Sequences
import Napitia.Lower.Leaving
import Napitia.Lower.Forking
import Napitia.Lower.Deciding
import Napitia.Lower.Arms
import Napitia.Lower.Dispatch
import Napitia.Lower.Following
import Napitia.Lower.Functions
import Napitia.Lower.Intact
import Napitia.Lower.IntactConstructs
import Napitia.Lower.IntactHandlers
import Napitia.Lower.WellFormed
import Napitia.Lower.Modules
import Napitia.Lower.ObservedTwice
import Napitia.EvidenceAgreement
import Napitia.Native.Paths
