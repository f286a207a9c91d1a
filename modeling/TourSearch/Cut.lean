import TourSearch.Numeric.Decimal
import TourSearch.Numeric.Scalar

/-!
Subtour cuts. A cut is a non-empty set of vertices together with the total value of the edges that
leave it. A tour leaves every proper set at least twice, so a cut of value below 2 is violated.
Two cuts are the same when their sets are, whatever the values.
-/

namespace TourSearch

open Numeric

structure Cut (α : Type) where
  side : VertexSet
  value : α
  nonempty : side.members ≠ []

namespace Cut

variable {α : Type}

/-- The cut of a set, which must not be empty. -/
def make (side : VertexSet) (value : α) : Except Fault (Cut α) :=
  if h : side.members = [] then .error .emptyCut else .ok ⟨side, value, h⟩

def same (c d : Cut α) : Bool := c.side == d.side

def size (c : Cut α) : Nat := c.side.size

def contains (c : Cut α) (v : Vertex) : Bool := decide (v ∈ c.side)

def complement (c : Cut α) (vertices : List Vertex) : Except Fault (Cut α) :=
  make ((SortedSet.ofList vertices).diff c.side) c.value

variable [Scalar α]

def violation (c : Cut α) : α := Scalar.two - c.value

/-- The members in the order of their written forms. -/
def shownMembers (c : Cut α) : List String :=
  Text.sorted (c.side.members.map Vertex.shown)

def shown (c : Cut α) : String :=
  "SubtourCut(value=" ++ significant 6 (Scalar.reading c.value) ++ ", set=[" ++
    ", ".intercalate c.shownMembers ++ "])"

end Cut

end TourSearch
