import Interlock.Access.Extraction
import Interlock.Access.Location
import Interlock.Access.Path
import Interlock.Command.Options
import Interlock.Command.Run
import Interlock.Config
import Interlock.FactSet
import Interlock.Fault
import Interlock.Flow.GenKill
import Interlock.Flow.Graph
import Interlock.Flow.Solver
import Interlock.Flow.Worklist
import Interlock.Graph.Condensation
import Interlock.Graph.Drawing
import Interlock.Graph.Search
import Interlock.Hierarchy
import Interlock.Json.Basic
import Interlock.Json.Decoder
import Interlock.Json.Numeral
import Interlock.Json.Text
import Interlock.Json.Token
import Interlock.Lattice
import Interlock.Lock.Basic
import Interlock.Lock.Tracking
import Interlock.Main
import Interlock.Note
import Interlock.Program.Basic
import Interlock.Program.Expr
import Interlock.Program.Text
import Interlock.Race.Candidate
import Interlock.Race.Collection
import Interlock.Race.Finding
import Interlock.Report.Text
import Interlock.Session
import Interlock.Sorted.Map
import Interlock.Sorted.Set
import Interlock.Summary.CallGraph
import Interlock.Summary.Component
import Interlock.Summary.Event
import Interlock.Summary.Facts
import Interlock.Summary.Inquiry
import Interlock.Summary.Store
import Interlock.ThreadContext
import Interlock.Proofs.Sorted
import Interlock.Proofs.Order
import Interlock.Proofs.FlowPaths
import Interlock.Proofs.BuildSteps
import Interlock.Proofs.Search
import Interlock.Proofs.Solver
import Interlock.Proofs.LeastSolution
import Interlock.Proofs.VisitingOrder
import Interlock.Proofs.OnePass
import Interlock.Proofs.LockPaths
import Interlock.Proofs.LockTracking
import Interlock.Proofs.Relabeling
import Interlock.Proofs.ComponentSearch
import Interlock.Proofs.Condensation
import Interlock.Proofs.Schedule
import Interlock.Proofs.CallGraph
import Interlock.Proofs.Shown
import Interlock.Proofs.Rounds
import Interlock.Proofs.Levels
import Interlock.Proofs.Inquiry
import Interlock.Proofs.Store
import Interlock.Proofs.Requests
import Interlock.Proofs.SessionFacts
import Interlock.Proofs.CallChains
import Interlock.Proofs.Convergence
import Interlock.Proofs.RoundLimits
import Interlock.Proofs.MutualRecursion
import Interlock.Proofs.SummaryForm
import Interlock.Proofs.Executions
import Interlock.Proofs.RaceReports
import Interlock.Proofs.RacePairs
import Interlock.Proofs.Representatives
import Interlock.Proofs.Interfaces
import Interlock.Proofs.RaceGist
import Interlock.Proofs.Coverage
import Interlock.Proofs.Soundness
import Interlock.Proofs.Strictness
import Interlock.Proofs.Notes
import Interlock.Proofs.Budgets
import Interlock.Proofs.MoreLocks
import Interlock.Proofs.AddedLocks
import Interlock.Proofs.Isolation
import Interlock.Proofs.ClassRecords
import Interlock.Proofs.RecordOrder
import Interlock.Proofs.Ancestors
import Interlock.Proofs.Overriding
import Interlock.Proofs.Ranking
import Interlock.Proofs.Accounting
import Interlock.Proofs.DeadCode
import Interlock.Proofs.Rewriting
import Interlock.Proofs.Bases
import Interlock.Proofs.Unlined
import Interlock.Proofs.UnlinedSummaries
import Interlock.Proofs.LineNumbers
import Interlock.Proofs.Json.Tokens
import Interlock.Proofs.Json.Values
import Interlock.Proofs.Json.Decoding
import Interlock.Proofs.ProgramText
import Interlock.Proofs.Guarded.Search
import Interlock.Proofs.Guarded.Solver
import Interlock.Proofs.Guarded.Locks
import Interlock.Proofs.Guarded.Condensation
import Interlock.Proofs.Guarded.CallGraph
import Interlock.Proofs.Guarded.Classes
import Interlock.Proofs.Guarded.Summaries
import Interlock.Proofs.Guarded.Session
import Interlock.Proofs.VisitLimits
import Interlock.Proofs.SearchOrders
