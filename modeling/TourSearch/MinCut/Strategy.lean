import TourSearch.MinCut.Terminal

/-!
Strategies for cuts between two vertices, chosen by name. A strategy is prepared for a graph and
then asked for any number of cuts. The strategies differ in how they work and not in what they
answer: the value is that of a minimum cut and the sink side is the smallest one.
-/

namespace TourSearch

inductive FlowMethod where
  | pushRelabel
  | edmondsKarp
  | shortestAugmentingPath
  | dinitz
  | boykovKolmogorov
  deriving DecidableEq, Repr

namespace FlowMethod

def name : FlowMethod → String
  | .pushRelabel => "PushRelabel"
  | .edmondsKarp => "EdmondsKarp"
  | .shortestAugmentingPath => "ShortestAugmentingPath"
  | .dinitz => "Dinitz"
  | .boykovKolmogorov => "BoykovKolmogorov"

def shown (m : FlowMethod) : String := "<" ++ m.name ++ "MinCut>"

def spellings : List (String × FlowMethod) :=
  [("push_relabel", .pushRelabel), ("pushrelabel", .pushRelabel), ("preflow_push", .pushRelabel),
    ("edmonds_karp", .edmondsKarp), ("edmondskarp", .edmondsKarp),
    ("shortest_augmenting_path", .shortestAugmentingPath), ("sap", .shortestAugmentingPath),
    ("dinitz", .dinitz),
    ("boykov_kolmogorov", .boykovKolmogorov), ("boykovkolmogorov", .boykovKolmogorov)]

/-- The method of a name. Capitals count as small letters and hyphens as underscores. -/
def ofName (name : String) : Except Fault FlowMethod :=
  let plain := (Text.lowercase name).map fun c => if c == '-' then '_' else c
  match spellings.lookup plain with
  | some method => .ok method
  | none => .error (.unknownMinCut name)

end FlowMethod

structure MinCutStrategy (α : Type) where
  method : FlowMethod
  prepared : Option (FlowGraph α)

namespace MinCutStrategy

variable {α : Type} [Scalar α]

def ofMethod (method : FlowMethod) : MinCutStrategy α := ⟨method, none⟩

def prepare (s : MinCutStrategy α) (g : FlowGraph α) : MinCutStrategy α :=
  { s with prepared := some g }

/-- A minimum cut of the prepared graph: its value and its source side. -/
def minCut (s : MinCutStrategy α) (source sink : Vertex) : Except Fault (α × VertexSet) :=
  match s.prepared with
  | some g => g.minCut source sink
  | none => .error (.notPrepared s.method.name)

end MinCutStrategy

end TourSearch
