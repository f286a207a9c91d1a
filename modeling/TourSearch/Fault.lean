import TourSearch.Vertex

/-!
The causes for which an operation can fail, each with its message. An operation that changes a
state returns the state it left behind together with the cause.
-/

namespace TourSearch

inductive Act where
  | apply
  | revert
  deriving DecidableEq, Repr

namespace Act

def verb : Act → String
  | .apply => "apply"
  | .revert => "revert"

def past : Act → String
  | .apply => "performed"
  | .revert => "reversed"

end Act

inductive Fault where
  /-- An edge with more labels than its two ends. -/
  | tooManyEnds
  /-- An edge with fewer labels than two. -/
  | tooFewEnds (got : Nat)
  /-- A vertex that is not where it was looked up. -/
  | missingVertex (v : Vertex)
  | emptyCut
  | negativeCutCount (count : Int)
  | vertexNotInGraph (v : Vertex)
  | sameTerminals
  /-- Infinite weights join the source to the sink. -/
  | unboundedFlow
  /-- Infinite weights cross every cut that the contraction met. -/
  | unboundedCut
  | notPrepared (algorithm : String)
  | unknownMinCut (name : String)
  | unknownSelection (name : String)
  | unknownOption (strategy option : String)
  | cutMode (got : String)
  | cutsPerRound
  | alreadyRestricted (e : Edge)
  | notFixed (e : Edge)
  | notForbidden (e : Edge)
  /-- There is no state on which the method could act. -/
  | noState (method : String)
  | undefinedTruncation
  | infiniteTruncation
  | rootRequired
  | inconsistentTrail
  | cannotDiscard (id : Int)
  | missingNode (id : Int)
  | notAChild
  | rejectedCuts (count : Nat) (node : Int)
  | logFrequencyZero
  /-- A decision that refuses the act. -/
  | refused (act : Act) (name : String)
  /-- A listener that fails when it hears of the act. -/
  | listenerFailed (name : String) (act : Act)
  /-- A relaxation that fails with a text of its own. -/
  | relaxationFailed (text : String)
  | outOfSteps
  | tooFewCities (count : Nat)
  | notSquare
  | indexOutOfRange
  | unequalDimensions
  | notANumber (text : String)
  deriving DecidableEq, Repr

namespace Fault

def message : Fault → String
  | .tooManyEnds => "too many values to unpack (expected 2)"
  | .tooFewEnds got => s!"not enough values to unpack (expected 2, got {got})"
  | .missingVertex v => v.shown
  | .emptyCut => "A subtour cut needs a non-empty cut set"
  | .negativeCutCount count => s!"max_cuts must be non-negative, got {count}"
  | .vertexNotInGraph v => "node " ++ v.bare ++ " not in graph"
  | .sameTerminals => "source and sink are the same node"
  | .unboundedFlow => "Infinite capacity path, flow unbounded above."
  | .unboundedCut =>
      "cannot access local variable 'best_phase' where it is not associated with a value"
  | .notPrepared algorithm => algorithm ++ ": prepare() must be called first"
  | .unknownMinCut name => "Unknown min-cut algorithm: " ++ Text.quoted name
  | .unknownSelection name => "Unknown node selection: " ++ Text.quoted name
  | .unknownOption strategy option => "Unknown " ++ strategy ++ " option: " ++ option
  | .cutMode got =>
      "cut_mode must be one of ('single', 'any', 'most_violated'), got " ++ Text.quoted got
  | .cutsPerRound => "max_cuts_per_round must be at least 1"
  | .alreadyRestricted e => "Edge " ++ e.shown ++ " is already restricted"
  | .notFixed e => "Edge " ++ e.shown ++ " is not fixed"
  | .notForbidden e => "Edge " ++ e.shown ++ " is not forbidden"
  | .noState method => "'NoneType' object has no attribute " ++ Text.quoted method
  | .undefinedTruncation => "cannot convert float NaN to integer"
  | .infiniteTruncation => "cannot convert float infinity to integer"
  | .rootRequired => "root_node is required"
  | .inconsistentTrail =>
      "A branching decision failed earlier; the search state is inconsistent and the search " ++
        "must be aborted"
  | .cannotDiscard id => s!"Node {id} cannot be discarded"
  | .missingNode id => toString id
  | .notAChild => "list.remove(x): x not in list"
  | .rejectedCuts count node =>
      s!"Relaxation rejected all {count} violated cuts at node {node}"
  | .logFrequencyZero => "integer modulo by zero"
  | .refused act name => "cannot " ++ act.verb ++ " " ++ name
  | .listenerFailed name act => "listener " ++ name ++ " " ++ act.past
  | .relaxationFailed text => text
  | .outOfSteps => "the search used up its steps"
  | .tooFewCities count => s!"A tour needs at least 3 cities, got {count}"
  | .notSquare => "Cost matrix must be square"
  | .indexOutOfRange => "list index out of range"
  | .unequalDimensions => "both points must have the same number of dimensions"
  | .notANumber text => "could not convert string to float: " ++ Text.quoted text

end Fault

/-- A step on a state of type `σ`. It ends with a result or with the cause of its failure, and in
both cases leaves a state behind. -/
abbrev Action (σ α : Type) := ExceptT Fault (StateM σ) α

namespace Action

variable {σ τ α : Type}

def zoom (get : τ → σ) (set : σ → τ → τ) (action : Action σ α) : Action τ α := fun whole =>
  let (result, part) := action (get whole)
  (result, set part whole)

/-- The outcome of a step and the state that it leaves. -/
def runOn (action : Action σ α) (s : σ) : Except Fault α × σ := action s

end Action

end TourSearch
