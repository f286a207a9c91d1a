import TourSearch.Linear.Simplex
import TourSearch.Search.Solver
import TourSearch.Tour.Extract
import TourSearch.Tour.Relaxation

/-!
Shortest tours by branch and cut: the search over the linear relaxation of an instance, with subtour
cuts separated from its solutions and edges to branch on. The relaxation listens to the decisions.
-/

namespace TourSearch

open Numeric

structure TourConfig (α : Type) where
  maxTime : α
  maxNodes : Int
  nodeSelection : String
  cutMode : String
  maxCutsPerRound : Int
  minCut : String
  verbose : Bool

namespace TourConfig

variable {α : Type} [Scalar α]

def standard : TourConfig α where
  maxTime := Scalar.ofInt 600
  maxNodes := 0
  nodeSelection := "best_first"
  cutMode := "most_violated"
  maxCutsPerRound := 10
  minCut := "push_relabel"
  verbose := false

def searchConfig (config : TourConfig α) : Except Fault (SearchConfig α) :=
  { (SearchConfig.standard : SearchConfig α) with
    maxTime := config.maxTime
    maxNodes := config.maxNodes
    nodeSelection := config.nodeSelection
    maxCutsPerRound := config.maxCutsPerRound
    verbose := config.verbose }.checked config.cutMode

end TourConfig

structure TourSolution (α : Type) where
  tour : List Nat
  cost : α
  found : Solution α

namespace TourRelaxation

variable {α : Type} [Scalar α]

def listenerName : String := "relaxation"

/-- The search problem of a relaxation whose linear programs are solved by the given method. The
clock stands still. -/
def problem (method : Linear.Program → Option (List Rat)) :
    Problem α Move (TourRelaxation α) where
  now := fun _ => Scalar.zero
  solve := fun r =>
    let (answer, r) := r.solveBy method
    (.ok answer, r)
  addCuts := fun cuts r =>
    let (count, r) := r.addCuts cuts
    (.ok count, r)
  perform := perform
  candidates := fun n values r => (EdgeBranching.standard.candidates n.id.toNat values, r)
  afterNode := fun _ s => (.ok (), s)

/-- More steps than a search over the cities can take: it meets fewer than `2 ^ (e + 1)` nodes, with
`e` the number of edges, and adds fewer than `2 ^ n` cuts. -/
def stepBound (cityCount : Nat) : Nat := twoTo (cityCount * cityCount)

end TourRelaxation

namespace Instance

variable {α : Type} [Scalar α]

def solver (method : Linear.Program → Option (List Rat)) (t : Instance α) (config : TourConfig α) :
    Except Fault (Solver α Move (TourRelaxation α)) := do
  let flow ← FlowMethod.ofName config.minCut
  let settings ← config.searchConfig
  let rule ← SelectionRule.ofName config.nodeSelection
  Solver.make (TourRelaxation.problem method) settings (some rule) (Separator.ofGraph t.graph flow)
    [TourRelaxation.listenerName] (TourRelaxation.ofInstance t Restrictions.empty)

def tourSolution (t : Instance α) (found : Solution α) : Except Fault (TourSolution α) := do
  let tour ← extractTour found.values t.cityCount
  let cost ← if tour.isEmpty then pure Scalar.infinity else t.tourCost (tour.map Int.ofNat)
  return ⟨tour, cost, found⟩

def summary (t : Instance α) (s : TourSolution α) : List String :=
  ["TSP " ++ t.name ++ ": " ++ s.found.status.name,
    "  Nodes explored: " ++ toString s.found.nodesExplored,
    "  Cuts added: " ++ toString s.found.cutsAdded] ++
  if s.tour.isEmpty then [] else ["  Tour length: " ++ fixed 4 (Scalar.reading s.cost)]

/-- Looks for a shortest tour, with the given method for linear programs. Returns also the lines
printed on the way. -/
def solveBy (method : Linear.Program → Option (List Rat)) (t : Instance α)
    (config : TourConfig α) : Except Fault (TourSolution α) × List String :=
  match t.solver method config with
  | .error fault => (.error fault, [])
  | .ok solver =>
      let (result, run, _) := solver.solve (TourRelaxation.stepBound t.cityCount) none none
      match result >>= t.tourSolution with
      | .error fault => (.error fault, run.lines)
      | .ok solution =>
          (.ok solution, run.lines ++ if config.verbose then t.summary solution else [])

def solve (t : Instance α) (config : TourConfig α) :
    Except Fault (TourSolution α) × List String := t.solveBy Linear.Program.simplex config

end Instance

end TourSearch
