import TourSearch.Graph.CutGraph

/-!
Answers of a relaxation: it is infeasible, or it has an optimal value attained at some edge values.
Edge values count as integral when none of them lies strictly between a tolerance and one less the
tolerance behind its whole part.
-/

namespace TourSearch

inductive Answer (α : Type) where
  | infeasible
  | solved (objective : α) (values : EdgeValues α)

variable {α : Type} [Scalar α]

/-- Whether no value of a list has a fraction between the tolerances. -/
def integralEntries (tolerance : α) : List (Edge × α) → Except Fault Bool
  | [] => .ok true
  | (_, value) :: rest => do
      let frac ← Scalar.fraction value
      if tolerance < frac ∧ frac < Scalar.one - tolerance then return false
      else integralEntries tolerance rest

def EdgeValues.isIntegral (values : EdgeValues α) (tolerance : α) : Except Fault Bool :=
  integralEntries tolerance values.entries

def standardTolerance : α := Scalar.ratio 1 1000000

end TourSearch
