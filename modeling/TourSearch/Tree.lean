import TourSearch.Node

/-!
The search tree. Every node has a record, addressed by a handle that never changes; the arena lists
the nodes of the tree by their ids in the order of creation. A discarded node leaves the arena and
keeps its record. A record can also be made without entering the arena. Along with the nodes the
tree keeps counters, the global bounds and the incumbent.
-/

namespace TourSearch

abbrev Handle := Nat

structure TreeStats (α : Type) where
  created : Nat
  processed : Nat
  prunedBound : Nat
  prunedInfeasible : Nat
  integer : Nat
  branched : Nat
  opened : Int
  maxDepth : Int
  lower : α
  upper : α

namespace TreeStats

variable {α : Type} [Scalar α]

def initial : TreeStats α where
  created := 0
  processed := 0
  prunedBound := 0
  prunedInfeasible := 0
  integer := 0
  branched := 0
  opened := 0
  maxDepth := 0
  lower := Scalar.negInfinity
  upper := Scalar.infinity

/-- A bound of smaller size counts as zero in the gap. -/
def resolution : α := Scalar.ratio 1 10000000000

/-- The distance of the global bounds relative to the upper one; infinite while one is unknown. -/
def gap (s : TreeStats α) : α :=
  if s.upper == Scalar.infinity || s.lower == Scalar.negInfinity then Scalar.infinity
  else if Scalar.magnitude s.upper < resolution then
    if Scalar.magnitude s.lower < resolution then Scalar.zero else Scalar.infinity
  else (s.upper - s.lower) / Scalar.magnitude s.upper

def countCreated (s : TreeStats α) (depth : Int) : TreeStats α :=
  { s with created := s.created + 1, opened := s.opened + 1, maxDepth := max s.maxDepth depth }

def countStatus (s : TreeStats α) : NodeStatus → TreeStats α
  | .prunedBound => { s with prunedBound := s.prunedBound + 1 }
  | .prunedInfeasible => { s with prunedInfeasible := s.prunedInfeasible + 1 }
  | .integer => { s with integer := s.integer + 1 }
  | .branched => { s with branched := s.branched + 1 }
  | _ => s

def countClosed (s : TreeStats α) : TreeStats α :=
  { s with processed := s.processed + 1, opened := s.opened - 1 }

end TreeStats

/-- The records of all nodes, the arena of the tree, the incumbent and the counters. The record at
handle 0 is the root. -/
structure Tree (α μ : Type) where
  records : Array (Node α μ)
  arena : Mapping Int Handle
  nextId : Nat
  incumbent : Option Handle
  stats : TreeStats α

namespace Tree

variable {α μ : Type} [Scalar α]

def node (t : Tree α μ) (h : Handle) : Node α μ := (t.records[h]?).getD Node.blank

def root : Handle := 0

def modify (t : Tree α μ) (h : Handle) (f : Node α μ → Node α μ) : Tree α μ :=
  { t with records := t.records.modify h f }

def detached (t : Tree α μ) (n : Node α μ) : Handle × Tree α μ :=
  (t.records.size, { t with records := t.records.push n })

def register (t : Tree α μ) (n : Node α μ) : Handle × Tree α μ :=
  let n := { n with id := t.nextId }
  let h := t.records.size
  (h, { t with
    records := t.records.push n
    arena := t.arena.put n.id h
    nextId := t.nextId + 1
    stats := t.stats.countCreated n.depth })

def initial : Tree α μ :=
  (register ⟨#[], Mapping.empty, 0, none, TreeStats.initial⟩ Node.blank).2

/-- The handle of the node with an id, unless it is unknown or discarded. -/
def lookup? (t : Tree α μ) (id : Int) : Option Handle := t.arena.get? id

def contains (t : Tree α μ) (id : Int) : Bool := t.arena.contains id

def size (t : Tree α μ) : Nat := t.arena.size

/-! ### Growing the tree -/

/-- The node that a decision makes of its parent: one deeper, with the bounds of the parent. -/
def childOf (parent : Node α μ) (d : Decision μ) : Node α μ :=
  { (Node.blank : Node α μ) with
    parent := parent.id
    depth := parent.depth + 1
    rootPath := parent.rootPath ++ [parent.id]
    lowerBound := parent.lowerBound
    upperBound := parent.upperBound
    inherited := parent.decisions
    fresh := [d] }

def createChild (t : Tree α μ) (parent : Handle) (d : Decision μ) : Handle × Tree α μ :=
  let id : Int := t.nextId
  let (h, t) := t.register (childOf (t.node parent) d)
  (h, t.modify parent fun n => { n with children := n.children ++ [id] })

/-- Gives a node its final status and updates the counters. -/
def markProcessed (t : Tree α μ) (h : Handle) (status : NodeStatus) : Tree α μ :=
  let stats := if (t.node h).status.isOpen then t.stats.countClosed else t.stats
  { (t.modify h fun n => { n with status }) with stats := stats.countStatus status }

def createEach (t : Tree α μ) (parent : Handle) : List (Decision μ) → List Handle × Tree α μ
  | [] => ([], t)
  | d :: rest =>
      let (h, t) := t.createChild parent d
      let (hs, t) := createEach t parent rest
      (h :: hs, t)

def createChildren (t : Tree α μ) (parent : Handle) (ds : List (Decision μ)) :
    List Handle × Tree α μ :=
  let (hs, t) := t.createEach parent ds
  (hs, t.markProcessed parent .branched)

/-! ### Closing nodes -/

/-- Prunes one pending node whose bound reaches the global upper bound, and counts it. -/
def pruneOne (t : Tree α μ) (h : Handle) : Bool × Tree α μ :=
  let n := t.node h
  if n.isPending && n.reaches t.stats.upper Node.pruneTolerance then
    (true,
      { (t.modify h fun n => { n with status := .prunedBound }) with
        stats := { t.stats with
          prunedBound := t.stats.prunedBound + 1
          opened := t.stats.opened - 1 } })
  else (false, t)

def pruneEach (t : Tree α μ) : List Handle → Nat × Tree α μ
  | [] => (0, t)
  | h :: rest =>
      let (pruned, t) := t.pruneOne h
      let (count, t) := pruneEach t rest
      (if pruned then count + 1 else count, t)

/-- Prunes every pending node whose bound reaches the global upper bound. -/
def pruneByBound (t : Tree α μ) : Nat × Tree α μ := t.pruneEach t.arena.values

/-! ### Bounds and incumbent -/

def setLower (t : Tree α μ) (value : α) : Tree α μ :=
    { t with stats := { t.stats with lower := value } }

def setUpper (t : Tree α μ) (value : α) : Tree α μ :=
    { t with stats := { t.stats with upper := value } }

def gap (t : Tree α μ) : α := t.stats.gap

def setIncumbent (t : Tree α μ) (h : Handle) : Tree α μ :=
  { t with incumbent := some h }.setUpper (t.node h).lpValue

/-! ### Paths -/

/-- The ids from the root down to a node of the arena; none if it is not there. -/
def pathToRoot (t : Tree α μ) (id : Int) : List Int :=
  match t.lookup? id with
  | some h => (t.node h).rootPath ++ [(t.node h).id]
  | none => []

/-- The last id that two paths share from their beginning, or else the given one. -/
def lastShared : Int → List Int → List Int → Int
  | shared, a :: as, b :: bs => if a = b then lastShared a as bs else shared
  | shared, _, _ => shared

def commonAncestor (t : Tree α μ) (a b : Handle) : Except Fault Handle :=
  let id := lastShared (t.node root).id (t.pathToRoot (t.node a).id) (t.pathToRoot (t.node b).id)
  match t.lookup? id with
  | some h => .ok h
  | none => .error (.missingNode id)

/-- Drops a processed node without children from the arena and from its parent's children. -/
def discard (t : Tree α μ) (h : Handle) : Except Fault Unit × Tree α μ :=
  let n := t.node h
  if !n.isProcessed || !n.children.isEmpty || h == root then (.error (.cannotDiscard n.id), t)
  else if !t.contains n.id then (.error (.missingNode n.id), t)
  else
    let t := { t with arena := t.arena.erase n.id }
    match t.lookup? n.parent with
    | none => (.ok (), t)
    | some p =>
        if n.id ∈ (t.node p).children then
          (.ok (), t.modify p fun q => { q with children := q.children.erase n.id })
        else (.error .notAChild, t)

end Tree

end TourSearch
