import TourSearch.Graph.CutGraph

/-!
The minimum cut of a connected weighted graph among all cuts, by contraction. A phase starts at the
first vertex and adds the vertex most tightly connected to those added, until one is left; the cut
of the phase separates this last vertex from the rest. Then the last vertex is merged into the one
added before it. The best phase, the first among equals, gives the minimum cut: the vertices that
had been merged into its last vertex. Of equally tight vertices the one whose tightness grew
earliest is added first.
-/

namespace TourSearch.MinCut

/-- A graph under contraction: every vertex with its neighbours and weights, in order. -/
abbrev Adjacency (α : Type) := Mapping Vertex (Mapping Vertex α)

namespace Adjacency

variable {α : Type} [Scalar α]

def neighbours (h : Adjacency α) (v : Vertex) : List (Vertex × α) :=
  match h.get? v with
  | some row => row.entries
  | none => []

/-- Sets the weight from `u` to `v`; a new neighbour goes to the end of the row. -/
def setArc (h : Adjacency α) (u v : Vertex) (weight : α) : Adjacency α :=
  h.put u (((h.get? u).getD Mapping.empty).put v weight)

def setEdge (h : Adjacency α) (u v : Vertex) (weight : α) : Adjacency α :=
  (h.setArc u v weight).setArc v u weight

def addVertex (h : Adjacency α) (v : Vertex) : Adjacency α :=
  if h.contains v then h else h.put v Mapping.empty

/-- The adjacency of weighted edges. Vertices stand in the order of their first edge. -/
def ofLinks (links : List (Link α)) : Adjacency α :=
  links.foldl
    (fun h link => ((h.addVertex link.tail).addVertex link.head).setEdge link.tail link.head
      link.weight)
    Mapping.empty

def addEdge (h : Adjacency α) (u v : Vertex) (weight : α) : Adjacency α :=
  match (h.get? u).bind (·.get? v) with
  | some old => h.setEdge u v (old + weight)
  | none => h.setEdge u v weight

def remove (h : Adjacency α) (v : Vertex) : Adjacency α :=
  ⟨(h.entries.filter fun entry => entry.1 ≠ v).map fun entry => (entry.1, entry.2.erase v)⟩

def contract (h : Adjacency α) (u v : Vertex) : Adjacency α :=
  let merged := (h.neighbours v).foldl
    (fun h' (t, weight) => if t = u then h' else h'.addEdge u t weight) h
  remove merged v

end Adjacency

/-- A vertex outside, with the negated weight of its edges to the vertices added so far and the
time when this last changed. -/
structure Loose (α : Type) where
  vertex : Vertex
  slack : α
  time : Nat

namespace Loose

variable {α : Type} [Scalar α]

def precedes (a b : Loose α) : Bool :=
  if a.slack == b.slack then decide (a.time < b.time) else decide (a.slack < b.slack)

def first? : List (Loose α) → Option (Loose α)
  | [] => none
  | a :: rest =>
      match first? rest with
      | none => some a
      | some b => if b.precedes a then some b else some a

end Loose

/-- The vertices outside, and the clock that orders their changes. -/
structure Outside (α : Type) where
  entries : List (Loose α)
  clock : Nat

namespace Outside

variable {α : Type} [Scalar α]

def empty : Outside α := ⟨[], 0⟩

def slack (o : Outside α) (v : Vertex) : α :=
  match o.entries.find? (·.vertex == v) with
  | some entry => entry.slack
  | none => Scalar.zero

/-- Gives a vertex a new slack, unless it already has one that is not larger. -/
def lower (o : Outside α) (v : Vertex) (slack : α) : Outside α :=
  match o.entries.find? (·.vertex == v) with
  | some entry =>
      if slack < entry.slack then
        ⟨o.entries.map fun e => if e.vertex == v then ⟨v, slack, o.clock⟩ else e, o.clock + 1⟩
      else o
  | none => ⟨o.entries ++ [⟨v, slack, o.clock⟩], o.clock + 1⟩

def remove (o : Outside α) (v : Vertex) : Outside α :=
  { o with entries := o.entries.filter fun e => e.vertex != v }

end Outside

variable {α : Type} [Scalar α]

def tighten (h : Adjacency α) (added : List Vertex) (u : Vertex) (o : Outside α) : Outside α :=
  (h.neighbours u).foldl
    (fun o (v, weight) => if v ∈ added then o else o.lower v (o.slack v - weight)) o

def sweep (h : Adjacency α) : Nat → List Vertex → Vertex → Outside α → Vertex × Outside α
  | 0, _, last, o => (last, o)
  | count + 1, added, last, o =>
      match Loose.first? o.entries with
      | none => (last, o)
      | some entry =>
          let u := entry.vertex
          sweep h count (u :: added) u (tighten h (u :: added) u (o.remove u))

/-- The cut of one phase: the vertex added last but one, the last vertex, and the weight that
separates the last one. -/
def phase? (h : Adjacency α) : Option (Vertex × Vertex × α) :=
  match h.keys with
  | [] => none
  | start :: rest =>
      let o := (h.neighbours start).foldl
        (fun (o : Outside α) (v, weight) => o.lower v (Scalar.zero - weight)) Outside.empty
      let (u, o) := sweep h (rest.length - 1) [start] start o
      (Loose.first? o.entries).map fun entry => (u, entry.vertex, Scalar.zero - entry.slack)

def phases : Nat → Adjacency α → List (Vertex × Vertex × α)
  | 0, _ => []
  | count + 1, h =>
      match phase? h with
      | none => []
      | some (u, v, weight) => (u, v, weight) :: phases count (h.contract u v)

/-- The least weight below `best` and the number of the first phase that has it. -/
def bestPhase : Nat → α → Option Nat → List (Vertex × Vertex × α) → Option (α × Nat)
  | _, best, found, [] => found.map fun i => (best, i)
  | i, best, found, (_, _, weight) :: rest =>
      if weight < best then bestPhase (i + 1) weight (some i) rest
      else bestPhase (i + 1) best found rest

/-- The vertices merged into the last vertex of a phase, by the mergers before the phase. -/
def mergedInto (mergers : List (Vertex × Vertex)) (v : Vertex) : VertexSet :=
  (Graph.build .simple [v] (mergers.map fun (u, w) => (u, w, none))).component v

def globalCut (links : List (Link α)) : Except Fault (α × VertexSet) :=
  let h := Adjacency.ofLinks links
  let found := phases (h.size - 1) h
  match bestPhase 0 Scalar.infinity none found with
  | none => .error .unboundedCut
  | some (value, i) =>
      match found[i]? with
      | none => .error .unboundedCut
      | some (_, v, _) =>
          .ok (value, mergedInto ((found.take i).map fun (u, w, _) => (u, w)) v)

end TourSearch.MinCut
