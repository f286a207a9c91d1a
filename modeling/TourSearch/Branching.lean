import TourSearch.Decision
import TourSearch.Graph.CutGraph
import TourSearch.Numeric.Decimal

/-!
Branching on edges. An edge whose value is farther than a tolerance from the whole numbers next to
it is a candidate, scored by its closeness to one half. Branching on it gives two children, one that
must use the edge and one that may not.
-/

namespace TourSearch

open Numeric

/-- A way to split a node: a score, one decision for every child, a description, and the edge and
value that gave rise to it. -/
structure Candidate (α μ : Type) where
  score : α
  decisions : List (Decision μ)
  description : String
  subject : Option (Edge × α)

namespace Candidate

variable {α μ : Type} [Scalar α]

def best? : List (Candidate α μ) → Option (Candidate α μ)
  | [] => none
  | c :: rest => some (rest.foldl (fun best c => if best.score < c.score then c else best) c)

end Candidate

/-- The first entries of a list. A negative count leaves out that many at the end. -/
def leading {β : Type} (count : Int) (l : List β) : List β :=
  if count < 0 then l.take (l.length - count.natAbs) else l.take count.toNat

structure EdgeBranching (α : Type) where
  tolerance : α
  maxCandidates : Int

namespace EdgeBranching

variable {α : Type} [Scalar α]

def name : String := "EdgeBranching"

def standard : EdgeBranching α := ⟨Scalar.ratio 1 1000000, 20⟩

/-- How close a fraction is to one half: 1 at one half, 0 at the whole numbers. -/
def scoreOf (frac : α) : α := Scalar.one - Scalar.magnitude (frac - Scalar.half) * Scalar.two

/-- The candidate of an edge and its value at the node with the given id, unless the value is as
good as whole. The two decisions are stamped by the node. -/
def candidate? (b : EdgeBranching α) (id : Nat) (e : Edge) (value : α) :
    Except Fault (Option (Candidate α Move)) := do
  let frac ← Scalar.fraction value
  if frac ≤ b.tolerance ∨ Scalar.one - b.tolerance ≤ frac then return none
  else
    return some {
      score := scoreOf frac
      decisions := [⟨2 * id, .fix e⟩, ⟨2 * id + 1, .remove e⟩]
      description := "edge " ++ e.shown ++ ": value=" ++ fixed 3 (Scalar.reading value)
      subject := some (e, value) }

def allCandidates (b : EdgeBranching α) (id : Nat) :
    List (Edge × α) → Except Fault (List (Candidate α Move))
  | [] => .ok []
  | (e, value) :: rest => do
      let first ← b.candidate? id e value
      let others ← b.allCandidates id rest
      return first.toList ++ others

/-- The candidates by score, the highest first, equal ones in the order of the edges. -/
def candidates (b : EdgeBranching α) (id : Nat) (values : EdgeValues α) :
    Except Fault (List (Candidate α Move)) := do
  let all ← b.allCandidates id values.entries
  return leading b.maxCandidates (all.mergeSort fun c d => !decide (c.score < d.score))

inductive Setting (α : Type) where
  | tolerance (value : α)
  | maxCandidates (value : Int)
  | unknown (option : String)

/-- Changes settings in turn up to the first unknown one; those before it stay changed. -/
def configure (b : EdgeBranching α) : List (Setting α) → Except Fault Unit × EdgeBranching α
  | [] => (.ok (), b)
  | .tolerance value :: rest => { b with tolerance := value }.configure rest
  | .maxCandidates value :: rest => { b with maxCandidates := value }.configure rest
  | .unknown option :: _ => (.error (.unknownOption name option), b)

end EdgeBranching

end TourSearch
