import TourSearch.Fault

/-!
Problem graphs. A graph lists its vertices in the order of insertion and its edges likewise; the
two ends of a new edge become vertices, the tail first. In the simple kinds an edge that is given
again changes nothing; in the multiple kinds edges with the same ends are told apart by a key.
`Graph.pairs` lists the joined pairs by vertex, each vertex with its neighbours in the order in
which they were joined to it.
-/

namespace TourSearch

def asPair {β : Type} : List β → Except Fault (β × β)
  | [a, b] => .ok (a, b)
  | [] => .error (.tooFewEnds 0)
  | [_] => .error (.tooFewEnds 1)
  | _ => .error .tooManyEnds

inductive GraphKind where
  | simple
  | directed
  | multi
  | multiDirected
  deriving DecidableEq, Repr

namespace GraphKind

def isDirected : GraphKind → Bool
  | .directed | .multiDirected => true
  | _ => false

def isMulti : GraphKind → Bool
  | .multi | .multiDirected => true
  | _ => false

/-- The two ends of an edge. Only with parallel edges a third label, the key, may follow. -/
def endpoints (kind : GraphKind) : Edge → Except Fault (Vertex × Vertex)
  | [u, v, key] => if kind.isMulti then .ok (u, v) else asPair [u, v, key]
  | e => asPair e

end GraphKind

structure Line where
  tail : Vertex
  head : Vertex
  key : Vertex
  deriving DecidableEq, Repr

/-- Whether an edge joins `u` to `v`, in this direction if the graph is directed. -/
def Line.joins (directed : Bool) (u v : Vertex) (line : Line) : Bool :=
  (line.tail == u && line.head == v) || (!directed && line.tail == v && line.head == u)

/-- A graph, its vertices and edges in the order of insertion. -/
structure Graph where
  kind : GraphKind
  vertices : List Vertex
  lines : List Line

namespace Graph

def empty (kind : GraphKind) : Graph := ⟨kind, [], []⟩

def addVertex (g : Graph) (v : Vertex) : Graph :=
  if v ∈ g.vertices then g else { g with vertices := g.vertices ++ [v] }

def between (g : Graph) (u v : Vertex) : List Line :=
  g.lines.filter (Line.joins g.kind.isDirected u v)

/-- The least unused number for a key, starting at a given one; `used` keys are in the way. -/
def freshKey (used : List Vertex) : Nat → Nat → Nat
  | 0, start => start
  | fuel + 1, start =>
      if Vertex.int start ∈ used then freshKey used fuel (start + 1) else start

/-- The key of a new edge among its parallel ones: the given key, or else the least unused number
that is at least their count. -/
def keyFor (parallel : List Line) : Option Vertex → Vertex
  | some key => key
  | none => .int (freshKey (parallel.map (·.key)) (parallel.length + 1) parallel.length)

/-- Adds an edge and its ends. An edge that is there already is not added again. -/
def addEdge (g : Graph) (u v : Vertex) (key : Option Vertex) : Graph :=
  let g := (g.addVertex u).addVertex v
  let parallel := g.between u v
  if g.kind.isMulti then
    let key := keyFor parallel key
    if parallel.any (·.key == key) then g else { g with lines := g.lines ++ [⟨u, v, key⟩] }
  else if parallel.isEmpty then { g with lines := g.lines ++ [⟨u, v, .blank⟩] }
  else g

def build (kind : GraphKind) (vertices : List Vertex)
    (edges : List (Vertex × Vertex × Option Vertex)) : Graph :=
  edges.foldl (fun g (u, v, key) => g.addEdge u v key) (vertices.foldl addVertex (empty kind))

/-- Every two of the numbers below `n` joined, in lexicographic order. -/
def complete (n : Nat) : Graph :=
  let vertex (i : Nat) : Vertex := .int i
  let edges := (List.range n).flatMap fun i =>
    ((List.range n).filter fun j => decide (i < j)).map fun j => (vertex i, vertex j, none)
  build .simple ((List.range n).map vertex) edges

def edgeCount (g : Graph) : Nat := g.lines.length

def neighbours (g : Graph) (v : Vertex) : List Vertex :=
  (g.lines.filterMap fun line =>
    if line.tail == v then some line.head
    else if !g.kind.isDirected && line.head == v then some line.tail
    else none).eraseDups

/-- The joined pairs by vertex. In an undirected graph a pair is listed where its first vertex
stands. -/
def pairsFrom (g : Graph) : List Vertex → List Vertex → List (Vertex × Vertex)
  | _, [] => []
  | seen, v :: rest =>
      let new := (g.neighbours v).filter fun w => g.kind.isDirected || !seen.contains w
      new.map (fun w => (v, w)) ++ pairsFrom g (v :: seen) rest

def pairs (g : Graph) : List (Vertex × Vertex) := g.pairsFrom [] g.vertices

def reach (g : Graph) : Nat → List Vertex → List Vertex
  | 0, found => found
  | steps + 1, found =>
      let new := ((found.flatMap g.neighbours).filter fun w => !found.contains w).eraseDups
      if new.isEmpty then found else reach g steps (found ++ new)

def component (g : Graph) (v : Vertex) : VertexSet :=
  SortedSet.ofList (g.reach g.vertices.length [v])

def componentsFrom (g : Graph) : List VertexSet → List Vertex → List VertexSet
  | _, [] => []
  | found, v :: rest =>
      if found.any fun c => decide (v ∈ c) then componentsFrom g found rest
      else
        let c := g.component v
        c :: componentsFrom g (c :: found) rest

def components (g : Graph) : List VertexSet := g.componentsFrom [] g.vertices

/-- Whether there is a vertex, and every other one can be reached from it. -/
def isConnected (g : Graph) : Bool := g.components.length == 1

end Graph

end TourSearch
