import TourSearch.Cut
import TourSearch.MinCut.Contraction
import TourSearch.MinCut.Strategy
import TourSearch.Shortlist

/-!
Separation of violated subtour cuts. Edge values are put on the working graph of a problem graph,
and cuts that they cross with less than 2 in total are looked for. `Separator.single` finds one cut
of least value; the other two scan the violated cuts between the first vertex and each of the others
as the sink, and return a number of different ones: `Separator.any` the first ones found, and
`Separator.mostViolated` those of least value, equal values in the order of discovery.
-/

namespace TourSearch

/-- A value below this violates a cut: 2 less the precision. -/
def violationThreshold {α : Type} [Scalar α] : α := Scalar.two - precision

/-- A working graph and the strategy for cuts between two vertices, as the last scan left them. -/
structure Separator (α : Type) where
  graph : CutGraph α
  strategy : MinCutStrategy α

namespace Separator

variable {α : Type} [Scalar α]

def ofGraph (g : Graph) (method : FlowMethod) : Separator α :=
  ⟨CutGraph.ofGraph g, MinCutStrategy.ofMethod method⟩

def method (s : Separator α) : FlowMethod := s.strategy.method

/-- The least cut of the weighted working graph. On a graph that is not connected it is the first
component, which nothing leaves. -/
def leastCut (g : CutGraph α) : Except Fault (α × VertexSet) :=
  if g.isConnected then MinCut.globalCut g.links
  else
    match g.components with
    | [] => .error .emptyCut
    | c :: _ => .ok (Scalar.zero, c)

def violatedLeast (g : CutGraph α) : Except Fault (Option (Cut α)) :=
  if g.vertexCount < 2 then .ok none
  else do
    let (value, side) ← leastCut g
    if value < violationThreshold then return some (← Cut.make side value) else return none

def single (s : Separator α) (values : EdgeValues α) :
    Except Fault (Option (Cut α)) × Separator α :=
  let (refreshed, graph) := s.graph.refresh values
  (refreshed >>= fun _ => violatedLeast graph, { s with graph })

def sinkCut (strategy : MinCutStrategy α) (source sink : Vertex) :
    Except Fault (Option (Cut α)) := do
  let (value, side) ← strategy.minCut source sink
  if value < violationThreshold then return some (← Cut.make side value) else return none

/-- Visits the violated cuts of the sinks in turn, up to a visit that ends the scan. -/
def visitCuts {β : Type} (strategy : MinCutStrategy α) (source : Vertex)
    (visit : β → Cut α → ForInStep β) : β → List Vertex → Except Fault β
  | b, [] => .ok b
  | b, sink :: rest => do
      match ← sinkCut strategy source sink with
      | none => visitCuts strategy source visit b rest
      | some cut =>
          match visit b cut with
          | .done b => return b
          | .yield b => visitCuts strategy source visit b rest

/-- Prepares the strategy for the weights as they are and visits the violated cuts of all sinks,
unless there is none. -/
def visitSinks {β : Type} (s : Separator α) (first : β) (visit : β → Cut α → ForInStep β) :
    Except Fault β × Separator α :=
  match s.graph.vertices with
  | source :: sink :: rest =>
      let strategy := s.strategy.prepare s.graph.flowGraph
      (visitCuts strategy source visit first (sink :: rest), { s with strategy })
  | _ => (.ok first, s)

def scan {β : Type} (s : Separator α) (values : EdgeValues α) (first : β)
    (visit : β → Cut α → ForInStep β) : Except Fault β × Separator α :=
  let (refreshed, graph) := s.graph.refresh values
  let s := { s with graph }
  match refreshed with
  | .ok () => s.visitSinks first visit
  | .error fault => (.error fault, s)

/-- Chooses up to `maxCuts` of the scanned cuts. A negative number is refused and none are found
when none are wanted; both leave the weights alone. -/
def several {β : Type} (s : Separator α) (values : EdgeValues α) (maxCuts : Int) (first : β)
    (visit : Nat → β → Cut α → ForInStep β) (chosen : β → List (Cut α)) :
    Except Fault (List (Cut α)) × Separator α :=
  if maxCuts < 0 then (.error (.negativeCutCount maxCuts), s)
  else if maxCuts = 0 then (.ok [], s)
  else
    let (found, s) := s.scan values first (visit maxCuts.toNat)
    (found.map chosen, s)

/-- Adds a cut to those found, unless its set is among them, and ends when there are `limit`. -/
def gather (limit : Nat) (found : List (Cut α)) (cut : Cut α) : ForInStep (List (Cut α)) :=
  if found.any (·.same cut) then .yield found
  else
    let found := found ++ [cut]
    if limit ≤ found.length then .done found else .yield found

def any (s : Separator α) (values : EdgeValues α) (maxCuts : Int) :
    Except Fault (List (Cut α)) × Separator α := s.several values maxCuts [] gather id

/-- The `maxCuts` different violated cuts of least value, by value. -/
def mostViolated (s : Separator α) (values : EdgeValues α) (maxCuts : Int) :
    Except Fault (List (Cut α)) × Separator α :=
  s.several values maxCuts Shortlist.empty (fun limit l cut => .yield (l.enter limit cut))
    Shortlist.best

def shown (s : Separator α) : String :=
  "<SubtourSeparator |V|=" ++ toString s.graph.vertexCount ++ " |E|=" ++
    toString s.graph.edgeCount ++ " " ++ s.method.name ++ ">"

end Separator

end TourSearch
