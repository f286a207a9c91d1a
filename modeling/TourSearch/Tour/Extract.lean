import TourSearch.Graph.CutGraph

/-!
Tours from edge values. Every edge of value above one half is used. If every city has two used edges
and following them from city 0 leads through all cities and back, the cities on the way are the
tour.
-/

namespace TourSearch

/-- The neighbours of the cities along used edges, for the cities 0 up to their number. -/
abbrev TourGraph := Array (List Nat)

namespace TourGraph

def city (g : TourGraph) (v : Vertex) : Except Fault Nat :=
  match v with
  | .int i => if 0 ≤ i ∧ i < g.size then .ok i.toNat else .error (.missingVertex v)
  | _ => .error (.missingVertex v)

def join (g : TourGraph) (i j : Nat) : TourGraph :=
  (g.modify i (· ++ [j])).modify j (· ++ [i])

def addEdges {α : Type} [Scalar α] (g : TourGraph) : List (Edge × α) → Except Fault TourGraph
  | [] => .ok g
  | (e, value) :: rest => do
      let (u, v) ← asPair e
      if Scalar.half < value then addEdges (g.join (← g.city u) (← g.city v)) rest
      else addEdges g rest

/-- The cities met after `current`, having come from `previous`, up to the return to city 0. -/
def walk (g : TourGraph) : Nat → Option Nat → Nat → List Nat
  | 0, _, _ => []
  | steps + 1, previous, current =>
      match g[current]? with
      | some [a, b] =>
          let next := if some a = previous then b else a
          if next = 0 then [] else next :: walk g steps (some current) next
      | _ => []

end TourGraph

/-- The tour of edge values on a number of cities, starting at city 0; empty if the used edges are
no single tour. -/
def extractTour {α : Type} [Scalar α] (values : EdgeValues α) (cityCount : Int) :
    Except Fault (List Nat) := do
  let count := cityCount.toNat
  let g ← TourGraph.addEdges (Array.replicate count []) values.entries
  if g.any fun adjacent => adjacent.length != 2 then return []
  else if count = 0 then throw (.missingVertex (.int 0))
  else
    let tour := 0 :: g.walk count none 0
    return if tour.length = count then tour else []

end TourSearch
