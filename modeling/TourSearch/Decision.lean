import TourSearch.Restrictions

/-!
Branching decisions. A decision is a move together with a stamp; the stamp is its identity, so two
decisions with the same move can be different decisions. Paths of decisions are compared by stamps.
-/

namespace TourSearch

/-- A move that was decided on. Equal stamps mean the same decision. -/
structure Decision (μ : Type) where
  stamp : Nat
  move : μ
  deriving DecidableEq, Repr

namespace Decision

variable {μ : Type}

def same (d e : Decision μ) : Bool := d.stamp == e.stamp

def commonPrefixLength : List (Decision μ) → List (Decision μ) → Nat
  | d :: ds, e :: es => if d.same e then commonPrefixLength ds es + 1 else 0
  | _, _ => 0

end Decision

end TourSearch
