import TourSearch.Graph.CutGraph
import TourSearch.MinCut.Residual

/-!
Minimum cuts between two vertices of a weighted graph. The weights are read exactly and scaled to
natural numbers, so the cut does not depend on rounding. Among the minimum cuts the one with the
smallest sink side is taken. Weights that are not positive leave the edge out. Infinite weights are
never cut; if they join the source to the sink there is no cut.
-/

namespace TourSearch

structure FlowGraph (α : Type) where
  vertices : List Vertex
  links : List (Link α)

inductive Capacity where
  | finite (amount : Rat)
  | infinite
  deriving DecidableEq, Repr

namespace Capacity

def amount? : Capacity → Option Rat
  | .finite amount => some amount
  | .infinite => none

end Capacity

namespace Link

variable {α : Type} [Scalar α]

def capacity? (link : Link α) : Option Capacity :=
  if Scalar.zero < link.weight then
    match Scalar.reading link.weight with
    | .finite false magnitude => some (.finite magnitude)
    | .infinite false => some .infinite
    | _ => none
  else none

end Link

namespace FlowGraph

variable {α : Type} [Scalar α]

def empty : FlowGraph α := ⟨[], []⟩

def addVertex (g : FlowGraph α) (v : Vertex) : FlowGraph α :=
  if v ∈ g.vertices then g else { g with vertices := g.vertices ++ [v] }

/-- Adds an edge and its ends. An edge that is there takes the new weight, and a loop is no edge. -/
def addLink (g : FlowGraph α) (u v : Vertex) (weight : α) : FlowGraph α :=
  let g := (g.addVertex u).addVertex v
  if u = v then g
  else if g.links.any (·.joins u v) then
    { g with
      links := g.links.map fun link => if link.joins u v then { link with weight } else link }
  else { g with links := g.links ++ [⟨u, v, weight⟩] }

def build (vertices : List Vertex) (edges : List (Vertex × Vertex × α)) : FlowGraph α :=
  edges.foldl (fun g (u, v, weight) => g.addLink u v weight) (vertices.foldl addVertex empty)

def arcs (g : FlowGraph α) : List (Vertex × Vertex × Capacity) :=
  g.links.filterMap fun link => link.capacity?.map fun c => (link.tail, link.head, c)

def joinedInfinitely (g : FlowGraph α) (u v : Vertex) : Bool :=
  let edges := g.arcs.filterMap fun (tail, head, c) =>
    if c = .infinite then some (tail, head, none) else none
  decide (v ∈ (Graph.build .simple g.vertices edges).component u)

def amounts (g : FlowGraph α) : List Rat := g.arcs.filterMap fun (_, _, c) => c.amount?

/-- The least number that makes every finite capacity whole. -/
def commonDenominator (g : FlowGraph α) : Nat := g.amounts.foldl (fun d q => d.lcm q.den) 1

/-- More than all finite capacities together, in units of the common denominator. -/
def beyond (g : FlowGraph α) : Nat :=
  let scale := g.commonDenominator
  g.amounts.foldl (fun total q => total + q.num.natAbs * (scale / q.den)) 1

def scaled (g : FlowGraph α) : Capacity → Nat
  | .finite amount => amount.num.natAbs * (g.commonDenominator / amount.den)
  | .infinite => g.beyond

/-- The residual capacities before any flow, in both directions of every edge. The vertices are
numbered by their places. -/
def residual (g : FlowGraph α) : MinCut.Residual :=
  let numbered := g.arcs.map fun (tail, head, c) =>
    (g.vertices.idxOf tail, g.vertices.idxOf head, g.scaled c)
  let start := MinCut.Residual.ofFn g.vertices.length fun _ _ => 0
  numbered.foldl (fun r (u, v, c) => (r.change u v (· + c)).change v u (· + c)) start

def crossing (g : FlowGraph α) (s : VertexSet) : Rat :=
  g.arcs.foldl
    (fun total (tail, head, c) =>
      if decide (tail ∈ s) != decide (head ∈ s) then total + c.amount?.getD 0 else total) 0

/-- The value of a minimum cut and its source side, the largest there is. -/
def minCut (g : FlowGraph α) (source sink : Vertex) : Except Fault (α × VertexSet) :=
  if source ∉ g.vertices then .error (.vertexNotInGraph source)
  else if sink ∉ g.vertices then .error (.vertexNotInGraph sink)
  else if source = sink then .error .sameTerminals
  else if g.joinedInfinitely source sink then .error .unboundedFlow
  else
    let sinkSide := g.residual.smallestSinkSide (g.vertices.idxOf source) (g.vertices.idxOf sink)
    let side := SortedSet.ofList (g.vertices.filter fun v =>
      !sinkSide.contains (g.vertices.idxOf v))
    .ok (Scalar.ofRat (g.crossing side), side)

end FlowGraph

def CutGraph.flowGraph {α : Type} [Scalar α] (g : CutGraph α) : FlowGraph α :=
  ⟨g.vertices, g.links⟩

end TourSearch
