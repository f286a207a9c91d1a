import TourSearch.Fault

/-!
Edges that must be used and edges that may not be. An edge is known by its two ends in either order.
Every change is strict: an edge that is restricted cannot be restricted again, and only what is
fixed or forbidden can be released. A change and its release therefore cancel.
-/

namespace TourSearch

/-- The fixed and the forbidden undirected edges. -/
structure Restrictions where
  fixed : SortedSet VertexSet
  forbidden : SortedSet VertexSet

namespace Restrictions

def empty : Restrictions := ⟨SortedSet.empty, SortedSet.empty⟩

def isFixed (r : Restrictions) (e : Edge) : Bool := decide (e.key ∈ r.fixed)

def isForbidden (r : Restrictions) (e : Edge) : Bool := decide (e.key ∈ r.forbidden)

def isRestricted (r : Restrictions) (e : Edge) : Bool := r.isFixed e || r.isForbidden e

def size (r : Restrictions) : Nat := r.fixed.size + r.forbidden.size

/-- The least and the greatest value that an edge may take. -/
def bounds (r : Restrictions) (e : Edge) : Nat × Nat :=
  if r.isFixed e then (1, 1) else if r.isForbidden e then (0, 0) else (0, 1)

def fix (r : Restrictions) (e : Edge) : Except Fault Restrictions :=
  if r.isRestricted e then .error (.alreadyRestricted e)
  else .ok { r with fixed := r.fixed.insert e.key }

def unfix (r : Restrictions) (e : Edge) : Except Fault Restrictions :=
  if r.isFixed e then .ok { r with fixed := r.fixed.erase e.key } else .error (.notFixed e)

def forbid (r : Restrictions) (e : Edge) : Except Fault Restrictions :=
  if r.isRestricted e then .error (.alreadyRestricted e)
  else .ok { r with forbidden := r.forbidden.insert e.key }

def unforbid (r : Restrictions) (e : Edge) : Except Fault Restrictions :=
  if r.isForbidden e then .ok { r with forbidden := r.forbidden.erase e.key }
  else .error (.notForbidden e)

def shown (r : Restrictions) : String :=
  "<EdgeRestrictions fixed=" ++ toString r.fixed.size ++ " forbidden=" ++
    toString r.forbidden.size ++ ">"

end Restrictions

inductive Move where
  | fix (e : Edge)
  | remove (e : Edge)
  deriving DecidableEq, Repr

namespace Move

def edge : Move → Edge
  | .fix e => e
  | .remove e => e

def act : Act → Move → Restrictions → Except Fault Restrictions
  | .apply, .fix e, r => r.fix e
  | .revert, .fix e, r => r.unfix e
  | .apply, .remove e, r => r.forbid e
  | .revert, .remove e, r => r.unforbid e

def changeName : Act → Move → String
  | .apply, .fix _ => "fix"
  | .revert, .fix _ => "unfix"
  | .apply, .remove _ => "forbid"
  | .revert, .remove _ => "unforbid"

def shown : Move → String
  | .fix e => "FixEdge" ++ e.shown
  | .remove e => "RemoveEdge" ++ e.shown

end Move

end TourSearch
