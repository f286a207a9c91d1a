import TourSearch.Branching
import TourSearch.Command.Arguments
import TourSearch.Command.Report
import TourSearch.Cut
import TourSearch.Decision
import TourSearch.Fault
import TourSearch.Graph.Basic
import TourSearch.Graph.CutGraph
import TourSearch.Heap
import TourSearch.Linear.Program
import TourSearch.Linear.Simplex
import TourSearch.Main
import TourSearch.Mapping
import TourSearch.MinCut.Contraction
import TourSearch.MinCut.Residual
import TourSearch.MinCut.Strategy
import TourSearch.MinCut.Terminal
import TourSearch.Node
import TourSearch.Numeric.Decimal
import TourSearch.Numeric.Extended
import TourSearch.Numeric.Numeral
import TourSearch.Numeric.Reading
import TourSearch.Numeric.Rounding
import TourSearch.Numeric.Scalar
import TourSearch.OpenQueue
import TourSearch.Relaxation
import TourSearch.Restrictions
import TourSearch.Search.Config
import TourSearch.Search.Run
import TourSearch.Search.Script
import TourSearch.Search.Solution
import TourSearch.Search.Solver
import TourSearch.Search.Watch
import TourSearch.Separator
import TourSearch.Shortlist
import TourSearch.Sets.Precedence
import TourSearch.Sets.SortedSet
import TourSearch.Text.CharClass
import TourSearch.Text.Order
import TourSearch.Text.Quoted
import TourSearch.Tour.Distance
import TourSearch.Tour.Extract
import TourSearch.Tour.Instance
import TourSearch.Tour.Points
import TourSearch.Tour.Relaxation
import TourSearch.Tour.Solve
import TourSearch.Trail
import TourSearch.Tree
import TourSearch.Vertex
import TourSearch.Proofs.Restrictions
import TourSearch.Proofs.Restrictions.Strictness
import TourSearch.Proofs.Trail
import TourSearch.Proofs.Trail.Failure
import TourSearch.Proofs.Extended
import TourSearch.Proofs.Graph.Reachability
import TourSearch.Proofs.Graph.Refresh
import TourSearch.Proofs.Mapping
import TourSearch.Proofs.MinCut.Adjacency
import TourSearch.Proofs.MinCut.Phase
import TourSearch.Proofs.MinCut.Contraction
import TourSearch.Proofs.Separation.Least
import TourSearch.Proofs.Heap
import TourSearch.Proofs.OpenQueue
import TourSearch.Proofs.OpenQueue.LazyDeletion
import TourSearch.Proofs.Action
import TourSearch.Proofs.Branching
import TourSearch.Proofs.Tree
import TourSearch.Proofs.Search.Partners
import TourSearch.Proofs.Search.Invariant
import TourSearch.Proofs.Search.Node
import TourSearch.Proofs.Search.Step
import TourSearch.Proofs.Search.Course
import TourSearch.Proofs.Search.Soundness
import TourSearch.Proofs.Lineage
import TourSearch.Proofs.Search.Restoration
import TourSearch.Proofs.Search.Context
import TourSearch.Proofs.Search.Acceptance
import TourSearch.Proofs.Search.Budget
import TourSearch.Proofs.Search.Totality
import TourSearch.Proofs.MinCut.Residual
import TourSearch.Proofs.MinCut.Terminal
import TourSearch.Proofs.Separation.Ranking
import TourSearch.Proofs.Separation.Shortlist
import TourSearch.Proofs.Separation.Scan
import TourSearch.Proofs.Separation.Truncation
import TourSearch.Proofs.Separation.Freshness
import TourSearch.Proofs.Tour.Closed
import TourSearch.Proofs.Tour.Cycle
import TourSearch.Proofs.Tour.Extract
import TourSearch.Proofs.Tour.Formulation
import TourSearch.Proofs.Tour.Values
import TourSearch.Proofs.Tour.Solving
import TourSearch.Proofs.Tour.Validity
import TourSearch.Proofs.Tour.Termination
import TourSearch.Proofs.Linear.Vertices
import TourSearch.Proofs.Tour.Polytope
import TourSearch.Proofs.Tour.Optimality
import TourSearch.Proofs.Search.OpenNodes
import TourSearch.Proofs.Search.Failures
import TourSearch.Proofs.Tour.Correspondence
import TourSearch.Proofs.Tour.StoredCuts
import TourSearch.Proofs.Search.Growth
import TourSearch.Proofs.Search.Termination
import TourSearch.Proofs.Arena
import TourSearch.Proofs.Tree.Census
import TourSearch.Proofs.Ancestry
import TourSearch.Proofs.Search.Pruning
import TourSearch.Proofs.Search.Exhaustion
import TourSearch.Proofs.Tour.Coherence
import TourSearch.Proofs.Tour.Bounds
import TourSearch.Proofs.Distance
import TourSearch.Proofs.Search.Turns
import TourSearch.Proofs.Search.Order
import TourSearch.Proofs.Search.Improvement
import TourSearch.Proofs.Search.Status
import TourSearch.Proofs.Branching.Choice
import TourSearch.Proofs.Branching.Nearness
import TourSearch.Proofs.Search.Splitting
import TourSearch.Proofs.Tour.Cost
import TourSearch.Proofs.Tour.CutPool
