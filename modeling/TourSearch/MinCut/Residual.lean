/-!
Maximum flows with natural capacities. The vertices are the numbers below the size of a square table
of residual capacities. From the sink, vertices with capacity left toward a vertex already found are
collected layer by layer. If the source is among them, the route from it is a shortest augmenting
path and is used up to its least capacity; otherwise the vertices found are those from which the
sink can still be reached, which is the smallest sink side of a minimum cut.
-/

namespace TourSearch.MinCut

/-- Capacities that are left between the vertices, a row for every tail. -/
structure Residual where
  size : Nat
  table : Array (Array Nat)

namespace Residual

def capacity (r : Residual) (u v : Nat) : Nat := ((r.table[u]?).getD #[])[v]?.getD 0

def ofFn (size : Nat) (capacity : Nat → Nat → Nat) : Residual :=
  ⟨size, Array.ofFn fun u : Fin size => Array.ofFn fun v : Fin size => capacity u v⟩

def change (r : Residual) (u v : Nat) (f : Nat → Nat) : Residual :=
  { r with table := r.table.modify u fun row => row.modify v f }

/-- Sends an amount from `u` to `v`: less is left this way, and more the other way. -/
def push (r : Residual) (amount : Nat) (arc : Nat × Nat) : Residual :=
  (r.change arc.1 arc.2 (· - amount)).change arc.2 arc.1 (· + amount)

/-- The vertices not yet found that have capacity toward a found one, each with the first such
vertex. A found vertex is listed with the next vertex on its way to the sink. -/
def layer (r : Residual) (found : List (Nat × Nat)) : List (Nat × Nat) :=
  (List.range r.size).filterMap fun u =>
    if found.any (·.1 == u) then none
    else (found.find? fun entry => decide (0 < r.capacity u entry.1)).map fun entry => (u, entry.1)

def grow (r : Residual) : Nat → List (Nat × Nat) → List (Nat × Nat)
  | 0, found => found
  | rounds + 1, found =>
      let new := r.layer found
      if new.isEmpty then found else grow r rounds (found ++ new)

def towardSink (r : Residual) (sink : Nat) : List (Nat × Nat) := r.grow r.size [(sink, sink)]

def route (found : List (Nat × Nat)) (sink : Nat) : Nat → Nat → List (Nat × Nat)
  | 0, _ => []
  | steps + 1, u =>
      if u = sink then []
      else
        match found.find? (·.1 == u) with
        | some (_, next) => (u, next) :: route found sink steps next
        | none => []

def bottleneck (r : Residual) : List (Nat × Nat) → Nat
  | [] => 0
  | [arc] => r.capacity arc.1 arc.2
  | arc :: rest => min (r.capacity arc.1 arc.2) (bottleneck r rest)

def augment (r : Residual) (arcs : List (Nat × Nat)) : Residual :=
  arcs.foldl (fun r' arc => r'.push (r.bottleneck arcs) arc) r

/-- Augments until the source cannot reach the sink, and returns the vertices that can. Every
augmentation sends at least one unit out of the source, so the capacity at the source bounds their
number. -/
def sinkSide (source sink : Nat) : Nat → Residual → List Nat
  | 0, r => (r.towardSink sink).map (·.1)
  | bound + 1, r =>
      let found := r.towardSink sink
      if found.any (·.1 == source) then
        sinkSide source sink bound (r.augment (route found sink r.size source))
      else found.map (·.1)

def outOf (r : Residual) (u : Nat) : Nat :=
  (List.range r.size).foldl (fun total v => total + r.capacity u v) 0

def smallestSinkSide (r : Residual) (source sink : Nat) : List Nat :=
  sinkSide source sink (r.outOf source) r

end Residual

end TourSearch.MinCut
