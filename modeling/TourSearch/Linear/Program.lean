/-!
Linear programs with bounded variables over the fractions: minimise a cost over points that keep
within the bounds of their columns and satisfy rows that are equations or lower bounds.
-/

namespace TourSearch.Linear

structure Column where
  cost : Rat
  lower : Rat
  upper : Rat
  deriving DecidableEq, Repr

inductive Sense where
  | equal
  | atLeast
  deriving DecidableEq, Repr

/-- A condition on the weighted sum of all variables. -/
structure Row where
  coefficients : List Rat
  sense : Sense
  bound : Rat
  deriving DecidableEq, Repr

structure Program where
  columns : List Column
  rows : List Row
  deriving DecidableEq, Repr

def dot (as bs : List Rat) : Rat := (as.zip bs).foldl (fun total (a, b) => total + a * b) 0

def Row.admits (row : Row) (point : List Rat) : Bool :=
  match row.sense with
  | .equal => dot row.coefficients point == row.bound
  | .atLeast => decide (row.bound ≤ dot row.coefficients point)

namespace Program

def objective (p : Program) (point : List Rat) : Rat := dot (p.columns.map (·.cost)) point

def admits (p : Program) (point : List Rat) : Bool :=
  point.length == p.columns.length &&
    (p.columns.zip point).all (fun (c, x) => decide (c.lower ≤ x) && decide (x ≤ c.upper)) &&
    p.rows.all (·.admits point)

end Program

end TourSearch.Linear
