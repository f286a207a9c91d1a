import TourSearch.Graph.Basic
import TourSearch.Numeric.Scalar

/-!
Instances of the symmetric travelling salesman problem: at least three cities, numbered from 0, and
a square table of costs. Cities can also be counted from the end by negative numbers.
-/

namespace TourSearch

/-- The entry of a list at a place; negative places count from the end. -/
def placed {β : Type} (l : List β) (i : Int) : Except Fault β :=
  let place := if i < 0 then i + l.length else i
  if place < 0 then .error .indexOutOfRange
  else
    match l[place.toNat]? with
    | some b => .ok b
    | none => .error .indexOutOfRange

structure Instance (α : Type) where
  costs : List (List α)
  name : String

namespace Instance

variable {α : Type}

def make (costs : List (List α)) (name : String) : Except Fault (Instance α) :=
  if costs.length < 3 then .error (.tooFewCities costs.length)
  else if costs.any fun row => row.length != costs.length then .error .notSquare
  else .ok ⟨costs, name⟩

def cityCount (t : Instance α) : Nat := t.costs.length

/-- All pairs of cities, the smaller one first, in lexicographic order. -/
def pairs (t : Instance α) : List (Nat × Nat) :=
  (List.range t.cityCount).flatMap fun i =>
    ((List.range t.cityCount).filter fun j => decide (i < j)).map fun j => (i, j)

def costBetween (t : Instance α) (i j : Int) : Except Fault α := do placed (← placed t.costs i) j

def cost (t : Instance α) (edge : List Int) : Except Fault α := do
  let (i, j) ← asPair edge
  t.costBetween i j

def city (i : Nat) : Vertex := .int i

def edge (i j : Nat) : Edge := [city i, city j]

def graph (t : Instance α) : Graph := Graph.complete t.cityCount

/-- The steps of a closed tour, the last one back to the first city. -/
def legs (tour : List Int) : List (Int × Int) := tour.zip (tour.rotateLeft 1)

def tourCost [Scalar α] (t : Instance α) (tour : List Int) : Except Fault α := do
  return Scalar.sum (← (legs tour).mapM fun (i, j) => t.costBetween i j)

end Instance

end TourSearch
