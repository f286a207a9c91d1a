import TourSearch.Search.Run

/-!
A solver that can be run again and again. From one search to the next it keeps its settings with the
limits last given, the world of its partners, and the result of the last search that came to one.
-/

namespace TourSearch

structure Solver (α μ σ : Type) where
  problem : Problem α μ σ
  config : SearchConfig α
  queue : OpenQueue α
  separator : Separator α
  listeners : List String
  world : σ
  solution : Option (Solution α)

namespace Solver

variable {α μ σ : Type} [Scalar α]

/-- A solver that has not searched yet. Without a rule for the order of the nodes, the configured
one is taken. -/
def make (problem : Problem α μ σ) (config : SearchConfig α) (rule : Option SelectionRule)
    (separator : Separator α) (listeners : List String) (world : σ) :
    Except Fault (Solver α μ σ) := do
  let rule ←
    match rule with
    | some rule => pure rule
    | none => SelectionRule.ofName config.nodeSelection
  return ⟨problem, config, OpenQueue.empty rule, separator, listeners, world, none⟩

def limited (config : SearchConfig α) (timeLimit : Option α) (nodeLimit : Option Int) :
    SearchConfig α :=
  { config with
    maxTime := timeLimit.getD config.maxTime
    maxNodes := nodeLimit.getD config.maxNodes }

/-- Searches, with new limits where they are given. Besides the result it returns the finished run.
-/
def solve (s : Solver α μ σ) (steps : Nat) (timeLimit : Option α) (nodeLimit : Option Int) :
    Except Fault (Solution α) × Run α μ σ × Solver α μ σ :=
  let config := limited s.config timeLimit nodeLimit
  let start := Run.start s.problem s.queue s.separator s.listeners s.world
  let (result, run) := start.complete s.problem config steps
  let solution :=
    match result with
    | .ok solution => some solution
    | .error _ => s.solution
  (result, run,
    { s with config, queue := run.queue, separator := run.separator, world := run.world, solution })

end Solver

end TourSearch
