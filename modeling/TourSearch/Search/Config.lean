import TourSearch.Numeric.Scalar

/-!
Settings of a search: its limits, the order of the nodes, how many cuts are separated in which way,
and the tolerances.
-/

namespace TourSearch

inductive CutMode where
  | single
  | any
  | mostViolated
  deriving DecidableEq, Repr

namespace CutMode

def name : CutMode → String
  | .single => "single"
  | .any => "any"
  | .mostViolated => "most_violated"

def all : List CutMode := [.single, .any, .mostViolated]

def ofName (name : String) : Except Fault CutMode :=
  match all.find? fun m => m.name == name with
  | some mode => .ok mode
  | none => .error (.cutMode name)

end CutMode

/-- The settings of a search. No limit on the nodes is written as 0. -/
structure SearchConfig (α : Type) where
  maxTime : α
  maxNodes : Int
  gapTolerance : α
  nodeSelection : String
  cutMode : CutMode
  maxCutsPerRound : Int
  maxCutRounds : Int
  integralityTolerance : α
  verbose : Bool
  logFrequency : Int

namespace SearchConfig

variable {α : Type} [Scalar α]

def standard : SearchConfig α where
  maxTime := Scalar.ofInt 3600
  maxNodes := 0
  gapTolerance := Scalar.ratio 1 1000000
  nodeSelection := "best_first"
  cutMode := .mostViolated
  maxCutsPerRound := 10
  maxCutRounds := 100
  integralityTolerance := Scalar.ratio 1 1000000
  verbose := false
  logFrequency := 10

/-- The settings with a mode for cuts given by name. The mode must be known, and at least one cut
wanted in a round. -/
def checked (config : SearchConfig α) (cutMode : String) : Except Fault (SearchConfig α) := do
  let mode ← CutMode.ofName cutMode
  if config.maxCutsPerRound < 1 then throw .cutsPerRound
  return { config with cutMode := mode }

end SearchConfig

end TourSearch
