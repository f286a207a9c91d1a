import TourSearch.Graph.CutGraph

/-!
The result of a search: how it ended, the best solution found, the bounds, and what it took.
-/

namespace TourSearch

inductive SearchStatus where
  | optimal
  | feasible
  | infeasible
  | timeLimit
  | nodeLimit
  | notSolved
  deriving DecidableEq, Repr

namespace SearchStatus

def name : SearchStatus → String
  | .optimal => "OPTIMAL"
  | .feasible => "FEASIBLE"
  | .infeasible => "INFEASIBLE"
  | .timeLimit => "TIME_LIMIT"
  | .nodeLimit => "NODE_LIMIT"
  | .notSolved => "NOT_SOLVED"

def all : List SearchStatus :=
  [.optimal, .feasible, .infeasible, .timeLimit, .nodeLimit, .notSolved]

def ofName? (name : String) : Option SearchStatus := all.find? fun s => s.name == name

/-- Whether a search that ends this way may have found a solution. -/
def admitsSolution : SearchStatus → Bool
  | .infeasible | .notSolved => false
  | _ => true

end SearchStatus

structure Solution (α : Type) where
  status : SearchStatus
  objective : α
  gap : α
  values : EdgeValues α
  nodesExplored : Nat
  nodesPruned : Nat
  cutsAdded : Nat
  totalTime : α
  relaxationTime : α
  separationTime : α
  lower : α
  upper : α
  maxDepth : Int

namespace Solution

variable {α : Type} [Scalar α]

def bare (status : SearchStatus) (values : EdgeValues α) : Solution α where
  status
  objective := Scalar.infinity
  gap := Scalar.infinity
  values
  nodesExplored := 0
  nodesPruned := 0
  cutsAdded := 0
  totalTime := Scalar.zero
  relaxationTime := Scalar.zero
  separationTime := Scalar.zero
  lower := Scalar.negInfinity
  upper := Scalar.infinity
  maxDepth := 0

def isOptimal (s : Solution α) : Bool := s.status == .optimal

def isFeasible (s : Solution α) : Bool := !s.values.isEmpty && s.status.admitsSolution

end Solution

end TourSearch
