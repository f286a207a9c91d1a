import TourSearch.Graph.Basic
import TourSearch.Mapping
import TourSearch.Numeric.Scalar

/-!
The working graph of the cut computations: the simple undirected graph under a problem graph, with
a weight on every edge. Parallel and opposite edges of the problem graph become one, and loops,
which cross no cut, are left out. `CutGraph.refresh` sets the weights from edge values; what
crosses a set is `CutGraph.cutWeight`.
-/

namespace TourSearch

/-- Values of edges, in the order in which they were given. -/
abbrev EdgeValues (α : Type) := Mapping Edge α

/-- A value up to this size counts as zero. -/
def precision {α : Type} [Scalar α] : α := Scalar.ratio 1 1000000

/-- A weighted edge between two different vertices; the one that stands first in the graph is the
tail. -/
structure Link (α : Type) where
  tail : Vertex
  head : Vertex
  weight : α

namespace Link

variable {α : Type}

def joins (link : Link α) (u v : Vertex) : Bool :=
  (link.tail == u && link.head == v) || (link.tail == v && link.head == u)

def crosses (link : Link α) (s : VertexSet) : Bool :=
  decide (link.tail ∈ s) != decide (link.head ∈ s)

end Link

structure CutGraph (α : Type) where
  input : Graph
  skeleton : Graph
  links : List (Link α)

namespace CutGraph

variable {α : Type} [Scalar α]

def ofGraph (g : Graph) : CutGraph α :=
  let edges := (g.pairs.filter fun (u, v) => u != v).map fun (u, v) => (u, v, none)
  let skeleton := Graph.build .simple g.vertices edges
  ⟨g, skeleton, skeleton.pairs.map fun (u, v) => ⟨u, v, Scalar.zero⟩⟩

def vertices (g : CutGraph α) : List Vertex := g.skeleton.vertices

def vertexCount (g : CutGraph α) : Nat := g.vertices.length

def edgeCount (g : CutGraph α) : Nat := g.links.length

def isConnected (g : CutGraph α) : Bool := g.skeleton.isConnected

def components (g : CutGraph α) : List VertexSet := g.skeleton.components

/-- The vertex that a look-up of the edge between `u` and `v` fails to find. -/
def missingEnd (g : CutGraph α) (u v : Vertex) : Vertex := if u ∈ g.vertices then v else u

def weight (g : CutGraph α) (u v : Vertex) : Except Fault α :=
  match g.links.find? (·.joins u v) with
  | some link => .ok link.weight
  | none => .error (.missingVertex (g.missingEnd u v))

def addWeight (g : CutGraph α) (u v : Vertex) (value : α) : Except Fault (CutGraph α) :=
  if g.links.any (·.joins u v) then
    .ok { g with
      links := g.links.map fun link =>
        if link.joins u v then { link with weight := link.weight + value } else link }
  else .error (.missingVertex (g.missingEnd u v))

def resetWeights (g : CutGraph α) : CutGraph α :=
  { g with links := g.links.map fun link => { link with weight := Scalar.zero } }

/-- Adds one edge value. Values up to the precision and loops add nothing. -/
def addValue (g : CutGraph α) (e : Edge) (value : α) : Except Fault (CutGraph α) :=
  if value ≤ precision then .ok g
  else do
    let (u, v) ← g.input.kind.endpoints e
    if u = v then .ok g else g.addWeight u v value

/-- Adds edge values up to the first that fails; those before it stay added. -/
def addValues (g : CutGraph α) : List (Edge × α) → Except Fault Unit × CutGraph α
  | [] => (.ok (), g)
  | (e, value) :: rest =>
      match g.addValue e value with
      | .ok g => g.addValues rest
      | .error fault => (.error fault, g)

/-- Sets the weights to the sums of the given edge values. -/
def refresh (g : CutGraph α) (values : EdgeValues α) : Except Fault Unit × CutGraph α :=
  g.resetWeights.addValues values.entries

def cutWeight (g : CutGraph α) (s : VertexSet) : α :=
  Scalar.sum ((g.links.filter (·.crosses s)).map (·.weight))

def shown (g : CutGraph α) : String :=
  "<WeightedCutGraph |V|=" ++ toString g.vertexCount ++ " |E|=" ++ toString g.edgeCount ++ ">"

end CutGraph

end TourSearch
