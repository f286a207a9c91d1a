import TourSearch.Decision
import TourSearch.Graph.CutGraph
import TourSearch.Numeric.Decimal

/-!
Nodes of the search tree: the place of a node in the tree, the decisions that lead to it, and what
is known about its relaxation.
-/

namespace TourSearch

open Numeric

inductive NodeStatus where
  | pending
  | processing
  | branched
  | prunedBound
  | prunedInfeasible
  | integer
  | fathomed
  deriving DecidableEq, Repr

namespace NodeStatus

def name : NodeStatus → String
  | .pending => "PENDING"
  | .processing => "PROCESSING"
  | .branched => "BRANCHED"
  | .prunedBound => "PRUNED_BOUND"
  | .prunedInfeasible => "PRUNED_INFEASIBLE"
  | .integer => "INTEGER"
  | .fathomed => "FATHOMED"

def all : List NodeStatus :=
  [.pending, .processing, .branched, .prunedBound, .prunedInfeasible, .integer, .fathomed]

def ofName? (name : String) : Option NodeStatus := all.find? fun s => s.name == name

def isOpen : NodeStatus → Bool
  | .pending | .processing => true
  | _ => false

def isPruned : NodeStatus → Bool
  | .prunedBound | .prunedInfeasible | .fathomed => true
  | _ => false

end NodeStatus

/-- A node of the search tree. `rootPath` lists its ancestors from the root down to the parent.
The inherited decisions are those of the ancestors, and the local ones were made when the node was
created. The root has no parent, which is written as -1. -/
structure Node (α μ : Type) where
  id : Int
  parent : Int
  depth : Int
  rootPath : List Int
  lowerBound : α
  upperBound : α
  lpValue : α
  status : NodeStatus
  isInteger : Bool
  inherited : List (Decision μ)
  fresh : List (Decision μ)
  children : List Int
  solution : EdgeValues α

namespace Node

variable {α μ : Type} [Scalar α]

def blank : Node α μ where
  id := 0
  parent := -1
  depth := 0
  rootPath := []
  lowerBound := Scalar.negInfinity
  upperBound := Scalar.infinity
  lpValue := Scalar.infinity
  status := .pending
  isInteger := false
  inherited := []
  fresh := []
  children := []
  solution := Mapping.empty

def decisions (n : Node α μ) : List (Decision μ) := n.inherited ++ n.fresh

def isRoot (n : Node α μ) : Bool := n.parent == -1

def isProcessed (n : Node α μ) : Bool := !n.status.isOpen

def isPruned (n : Node α μ) : Bool := n.status.isPruned

def isPending (n : Node α μ) : Bool := n.status == .pending

def hasSolution (n : Node α μ) : Bool := !n.solution.isEmpty

/-- The distance of the two bounds relative to the upper one. -/
def gap (n : Node α μ) : α :=
  if n.upperBound == Scalar.infinity || n.lowerBound == Scalar.negInfinity then Scalar.infinity
  else if n.upperBound == Scalar.zero then
    if n.lowerBound == Scalar.zero then Scalar.zero else Scalar.infinity
  else (n.upperBound - n.lowerBound) / Scalar.magnitude n.upperBound

/-- Whether the lower bound comes within a tolerance of an upper bound. -/
def reaches (n : Node α μ) (upper tolerance : α) : Bool := decide (upper - tolerance ≤ n.lowerBound)

def tryPrune (n : Node α μ) (upper tolerance : α) : Bool × Node α μ :=
  if n.reaches upper tolerance then (true, { n with status := .prunedBound }) else (false, n)

def pruneTolerance : α := Scalar.ratio 1 1000000

def shown (moveText : μ → String) (n : Node α μ) : String :=
  "BPNode(id=" ++ toString n.id ++ ", depth=" ++ toString n.depth ++ ", bound=" ++
    significant 6 (Scalar.reading n.lowerBound) ++ ", status=" ++ n.status.name ++
    ", decisions=[" ++ ", ".intercalate (n.decisions.map fun d => moveText d.move) ++ "])"

end Node

end TourSearch
