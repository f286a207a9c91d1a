import TourSearch.Heap
import TourSearch.Tree

/-!
The open nodes of a search, in the order in which they are explored. An entry takes its key and its
number when it is inserted: the least bound first, or the deepest node first with the least bound
among equally deep ones, or the nodes in the order of their ids. Equal keys leave in the order of
insertion. A node that was closed in the meantime stays in the queue until it comes to the front or
the queue is pruned; closed nodes are passed over.
-/

namespace TourSearch

inductive SelectionRule where
  | bestFirst
  | depthFirst
  | breadthFirst
  deriving DecidableEq, Repr

namespace SelectionRule

def name : SelectionRule → String
  | .bestFirst => "BestFirstSelector"
  | .depthFirst => "DepthFirstSelector"
  | .breadthFirst => "BreadthFirstSelector"

def spellings : List (String × SelectionRule) :=
  [("best_first", .bestFirst), ("bestfirst", .bestFirst), ("best_bound", .bestFirst),
    ("depth_first", .depthFirst), ("depthfirst", .depthFirst), ("dfs", .depthFirst),
    ("breadth_first", .breadthFirst), ("breadthfirst", .breadthFirst), ("bfs", .breadthFirst)]

def ofName (name : String) : Except Fault SelectionRule :=
  match spellings.lookup (Text.lowercase name) with
  | some rule => .ok rule
  | none => .error (.unknownSelection name)

end SelectionRule

/-- The priority of an entry: first by rank, then by bound. -/
structure Priority (α : Type) where
  rank : Int
  bound : α

/-- A node in the queue, with its priority and its number at insertion. -/
structure Waiting (α : Type) where
  priority : Priority α
  number : Nat
  node : Handle

namespace Waiting

variable {α : Type} [Scalar α]

def before (a b : Waiting α) : Bool :=
  if a.priority.rank ≠ b.priority.rank then decide (a.priority.rank < b.priority.rank)
  else if a.priority.bound == b.priority.bound then decide (a.number < b.number)
  else decide (a.priority.bound < b.priority.bound)

end Waiting

structure OpenQueue (α : Type) where
  rule : SelectionRule
  heap : Heap (Waiting α)
  next : Nat

namespace OpenQueue

variable {α μ : Type} [Scalar α]

def empty (rule : SelectionRule) : OpenQueue α := ⟨rule, Heap.empty, 0⟩

def isEmpty (q : OpenQueue α) : Bool := q.heap.isEmpty

def size (q : OpenQueue α) : Nat := q.heap.size

def clear (q : OpenQueue α) : OpenQueue α := { q with heap := Heap.empty }

def priorityOf : SelectionRule → Node α μ → Priority α
  | .bestFirst, n => ⟨0, n.lowerBound⟩
  | .depthFirst, n => ⟨-n.depth, n.lowerBound⟩
  | .breadthFirst, n => ⟨n.id, Scalar.zero⟩

/-- Adds a node, if it is pending. -/
def add (q : OpenQueue α) (t : Tree α μ) (h : Handle) : OpenQueue α :=
  let n := t.node h
  if n.isPending then
    { q with
      heap := q.heap.push Waiting.before ⟨priorityOf q.rule n, q.next, h⟩
      next := q.next + 1 }
  else q

def addAll (q : OpenQueue α) (t : Tree α μ) (hs : List Handle) : OpenQueue α :=
  hs.foldl (fun q h => q.add t h) q

/-- Removes entries until the first one is pending. At most `count` entries are removed. -/
def dropClosed (t : Tree α μ) : Nat → Heap (Waiting α) → Heap (Waiting α)
  | 0, heap => heap
  | count + 1, heap =>
      match heap.min? with
      | none => heap
      | some entry =>
          if (t.node entry.node).isPending then heap
          else dropClosed t count (heap.dropMin Waiting.before)

/-- The queue with a pending node in front, or empty. -/
def settle (q : OpenQueue α) (t : Tree α μ) : OpenQueue α :=
  { q with heap := dropClosed t q.heap.size q.heap }

def peek (q : OpenQueue α) (t : Tree α μ) : Option Handle × OpenQueue α :=
  let q := q.settle t
  (q.heap.min?.map (·.node), q)

def pop (q : OpenQueue α) (t : Tree α μ) : Option Handle × OpenQueue α :=
  let q := q.settle t
  (q.heap.min?.map (·.node), { q with heap := q.heap.dropMin Waiting.before })

def prune (q : OpenQueue α) (t : Tree α μ) : Nat × OpenQueue α :=
  let kept := q.heap.toList.filter fun entry => (t.node entry.node).isPending
  (q.heap.size - kept.length, { q with heap := Heap.ofList Waiting.before kept })

def least : List α → α
  | [] => Scalar.infinity
  | x :: rest => rest.foldl Scalar.smaller x

/-- The least bound of the nodes in the queue. With the best-first rule it is read off the first
priority. -/
def bestBound (q : OpenQueue α) (t : Tree α μ) : α :=
  match q.rule with
  | .bestFirst =>
      match q.heap.min? with
      | some entry => entry.priority.bound
      | none => Scalar.infinity
  | _ => least (q.heap.toList.map fun entry => (t.node entry.node).lowerBound)

def handles (q : OpenQueue α) : List Handle := q.heap.toList.map (·.node)

end OpenQueue

end TourSearch
