import TourSearch.Branching
import TourSearch.OpenQueue
import TourSearch.Relaxation
import TourSearch.Search.Config
import TourSearch.Search.Solution
import TourSearch.Separator
import TourSearch.Trail

/-!
The search. Nodes are taken from the open queue one by one. At a node the trail moves to its
decisions; then the relaxation is solved and violated cuts are added until none is left, and the
node is closed: as infeasible, as no better than the incumbent, as a new incumbent, or by branching.
Whatever ends the search, the trail is brought back to the root unless a decision or a listener
failed.

What a search works on is a `Problem`: a relaxation, a branching strategy, the effect of decisions
and notices, and a clock, all acting on a world of their own. The search itself is a step on a
`Run`, which holds the world and everything the search knows.
-/

namespace TourSearch

open Numeric

/-- The partners of a search. They act on a world of type `σ`. -/
structure Problem (α μ σ : Type) where
  /-- The time. -/
  now : σ → α
  /-- Solves the relaxation under the decisions and cuts of the world. -/
  solve : Action σ (Answer α)
  /-- Adds cuts to the relaxation, and returns how many were new. -/
  addCuts : List (Cut α) → Action σ Nat
  /-- Applies or reverts a decision, or tells a listener. -/
  perform : Call μ → Action σ Unit
  /-- The ways to split a node with the given edge values. -/
  candidates : Node α μ → EdgeValues α → Action σ (List (Candidate α μ))
  /-- What is done after a node. It may also change the tree. -/
  afterNode : Handle → Action (Tree α μ × σ) Unit

structure Run (α μ σ : Type) where
  tree : Tree α μ
  queue : OpenQueue α
  trail : Trail μ
  separator : Separator α
  incumbentValues : EdgeValues α
  explored : Nat
  cutsAdded : Nat
  started : α
  relaxationTime : α
  separationTime : α
  /-- The lines printed so far. -/
  lines : List String
  world : σ

namespace Run

variable {α μ σ β : Type} [Scalar α]

def onWorld (action : Action σ β) : Action (Run α μ σ) β :=
  Action.zoom (·.world) (fun world run => { run with world }) action

def onTreeAndWorld (action : Action (Tree α μ × σ) β) : Action (Run α μ σ) β :=
  Action.zoom (fun run => (run.tree, run.world))
    (fun (tree, world) run => { run with tree, world }) action

def modifyTree (f : Tree α μ → Tree α μ) : Action (Run α μ σ) Unit :=
  modify fun run => { run with tree := f run.tree }

def elapsed (p : Problem α μ σ) (run : Run α μ σ) : α := p.now run.world - run.started

/-! ### Cuts at a node -/

def solveRelaxation (p : Problem α μ σ) : Action (Run α μ σ) (Answer α) := do
  let start := p.now (← get).world
  let answer ← onWorld p.solve
  modify fun run =>
    { run with relaxationTime := run.relaxationTime + (p.now run.world - start) }
  return answer

def separated (config : SearchConfig α) (s : Separator α) (values : EdgeValues α) :
    Except Fault (List (Cut α)) × Separator α :=
  match config.cutMode with
  | .single =>
      let (found, s) := s.single values
      (found.map Option.toList, s)
  | .any => s.any values config.maxCutsPerRound
  | .mostViolated => s.mostViolated values config.maxCutsPerRound

def separate (p : Problem α μ σ) (config : SearchConfig α) (values : EdgeValues α) :
    Action (Run α μ σ) (List (Cut α)) := do
  let start := p.now (← get).world
  let (found, separator) := separated config (← get).separator values
  modify fun run => { run with separator }
  let cuts ← MonadExcept.ofExcept found
  modify fun run =>
    { run with separationTime := run.separationTime + (p.now run.world - start) }
  return cuts

/-- Adds violated cuts, at least one of which the relaxation must take. -/
def addCuts (p : Problem α μ σ) (id : Int) (cuts : List (Cut α)) : Action (Run α μ σ) Unit := do
  let added ← onWorld (p.addCuts cuts)
  modify fun run => { run with cutsAdded := run.cutsAdded + added }
  if added = 0 then throw (.rejectedCuts cuts.length id)

/-- Solves the relaxation and adds violated cuts in turn. It ends when the node is known to be
closed, when no cut is violated, or after the allowed number of rounds, unless the values are
integral: those cannot be branched on and are always cut off. -/
def solveWithCuts (p : Problem α μ σ) (config : SearchConfig α) (id : Int) :
    Nat → Int → Action (Run α μ σ) (Answer α)
  | 0, _ => throw .outOfSteps
  | steps + 1, rounds => do
      match ← solveRelaxation p with
      | .infeasible => return .infeasible
      | .solved objective values =>
          if (← get).tree.stats.upper - config.gapTolerance ≤ objective then
            return .solved objective values
          else
            let cuts ← separate p config values
            if cuts.isEmpty then return .solved objective values
            else
              let integral ← MonadExcept.ofExcept (values.isIntegral config.integralityTolerance)
              if config.maxCutRounds ≤ rounds ∧ integral = false then
                return .solved objective values
              else
                addCuts p id cuts
                solveWithCuts p config id steps (rounds + 1)

/-! ### Closing a node -/

def acceptIncumbent (h : Handle) (values : EdgeValues α) : Action (Run α μ σ) Unit :=
  modify fun run =>
    let tree := run.tree.modify h fun n => { n with isInteger := true, solution := values }
    let tree := (tree.markProcessed h .integer).setIncumbent h
    let tree := tree.pruneByBound.2
    { run with tree, incumbentValues := values, queue := (run.queue.prune tree).2 }

/-- Splits a node by the best candidate. A node without candidates is given up. -/
def branch (p : Problem α μ σ) (h : Handle) (values : EdgeValues α) :
    Action (Run α μ σ) Unit := do
  let candidates ← onWorld (p.candidates ((← get).tree.node h) values)
  match Candidate.best? candidates with
  | none => modifyTree fun t => t.markProcessed h .fathomed
  | some candidate =>
      modify fun run =>
        let (children, tree) := run.tree.createChildren h candidate.decisions
        { run with tree, queue := run.queue.addAll tree children }

def close (p : Problem α μ σ) (config : SearchConfig α) (h : Handle) :
    Answer α → Action (Run α μ σ) Unit
  | .infeasible => modifyTree fun t => t.markProcessed h .prunedInfeasible
  | .solved objective values => do
      modifyTree fun t => t.modify h fun n =>
        { n with lpValue := objective, lowerBound := Scalar.larger n.lowerBound objective }
      let tree := (← get).tree
      if (tree.node h).reaches tree.stats.upper config.gapTolerance then
        modifyTree fun t => t.markProcessed h .prunedBound
      else if ← MonadExcept.ofExcept (values.isIntegral config.integralityTolerance) then
        acceptIncumbent h values
      else branch p h values

/-! ### The loop over the nodes -/

def progressLine (p : Problem α μ σ) (h : Handle) (run : Run α μ σ) : String :=
  let n := run.tree.node h
  let upper := run.tree.stats.upper
  let lower := Scalar.smaller (Scalar.smaller (run.queue.bestBound run.tree) upper) n.lowerBound
  let bound (x : α) := alignRight 12 (fixed 4 (Scalar.reading x))
  "Node " ++ alignRight 6 (toString run.explored) ++
    " | Depth " ++ alignRight 4 (toString n.depth) ++
    " | LB " ++ bound lower ++ " | UB " ++ bound upper ++
    " | Cuts " ++ alignRight 6 (toString run.cutsAdded) ++
    " | Open " ++ alignRight 5 (toString run.queue.size) ++
    " | Time " ++ alignRight 8 (fixed 1 (Scalar.reading (run.elapsed p))) ++ "s"

def report (p : Problem α μ σ) (config : SearchConfig α) (h : Handle) :
    Action (Run α μ σ) Unit := do
  if config.verbose then
    if config.logFrequency = 0 then throw .logFrequencyZero
    else if ((← get).explored : Int) % config.logFrequency = 0 then
      modify fun run => { run with lines := run.lines ++ [run.progressLine p h] }

def limitReached (p : Problem α μ σ) (config : SearchConfig α) (run : Run α μ σ) : Bool :=
  decide (config.maxTime ≤ run.elapsed p) ||
    (decide (0 < config.maxNodes) && decide (config.maxNodes ≤ run.explored))

def goTo (p : Problem α μ σ) (h : Handle) : Action (Run α μ σ) Unit := fun run =>
  let (result, trail, world) :=
    run.trail.transition p.perform ⟨h, (run.tree.node h).decisions⟩ run.world
  (result, { run with trail, world })

def explore (p : Problem α μ σ) (config : SearchConfig α) (steps : Nat) (h : Handle) :
    Action (Run α μ σ) Unit := do
  modify fun run => { run with
    explored := run.explored + 1
    tree := run.tree.modify h fun n => { n with status := .processing } }
  report p config h
  goTo p h
  let answer ← solveWithCuts p config ((← get).tree.node h).id steps 0
  close p config h answer
  onTreeAndWorld (p.afterNode h)

def nextNode : Action (Run α μ σ) (Option Handle) := fun run =>
  let (next, queue) := run.queue.pop run.tree
  (.ok next, { run with queue })

/-- Explores nodes until none is open or a limit is reached. `steps` bounds the number of nodes, and
at every node the number of relaxations solved. -/
def exploreAll (p : Problem α μ σ) (config : SearchConfig α) (steps : Nat) :
    Nat → Action (Run α μ σ) Unit
  | 0 => throw .outOfSteps
  | count + 1 => do
      let run ← get
      if run.queue.isEmpty || run.limitReached p config then return ()
      else
        match ← nextNode with
        | none => return ()
        | some h =>
            explore p config steps h
            exploreAll p config steps count

/-- Explores, and then takes the least open bound for the global lower bound. -/
def search (p : Problem α μ σ) (config : SearchConfig α) (steps : Nat) :
    Action (Run α μ σ) Unit := do
  exploreAll p config steps steps
  modify fun run => { run with
    tree := run.tree.setLower
      (Scalar.smaller (run.queue.bestBound run.tree) run.tree.stats.upper) }

/-- Brings the trail back to the root, unless it is inconsistent. -/
def goHome (p : Problem α μ σ) : Action (Run α μ σ) Unit := fun run =>
  if run.trail.consistent then
    let (result, trail, world) := run.trail.restore p.perform run.world
    (result, { run with trail, world })
  else (.ok (), run)

def finalStatus (p : Problem α μ σ) (config : SearchConfig α) (run : Run α μ σ) : SearchStatus :=
  if run.queue.isEmpty || decide (run.tree.gap ≤ config.gapTolerance) then
    if run.tree.incumbent.isSome then .optimal else .infeasible
  else if config.maxTime ≤ run.elapsed p then .timeLimit
  else if 0 < config.maxNodes ∧ config.maxNodes ≤ run.explored then .nodeLimit
  else if run.tree.incumbent.isSome then .feasible
  else .notSolved

def solution (p : Problem α μ σ) (config : SearchConfig α) (run : Run α μ σ) : Solution α where
  status := run.finalStatus p config
  objective :=
    match run.tree.incumbent with
    | some h => (run.tree.node h).lpValue
    | none => Scalar.infinity
  gap := run.tree.gap
  values := run.incumbentValues
  nodesExplored := run.explored
  nodesPruned := run.tree.stats.prunedBound + run.tree.stats.prunedInfeasible
  cutsAdded := run.cutsAdded
  totalTime := run.elapsed p
  relaxationTime := run.relaxationTime
  separationTime := run.separationTime
  lower := run.tree.stats.lower
  upper := run.tree.stats.upper
  maxDepth := run.tree.stats.maxDepth

def start (p : Problem α μ σ) (queue : OpenQueue α) (separator : Separator α)
    (listeners : List String) (world : σ) : Run α μ σ :=
  let tree : Tree α μ := Tree.initial
  let trail := listeners.foldl Trail.addListener (Trail.start ⟨Tree.root, []⟩)
  { tree
    queue := queue.clear.add tree Tree.root
    trail
    separator
    incumbentValues := Mapping.empty
    explored := 0
    cutsAdded := 0
    started := p.now world
    relaxationTime := Scalar.zero
    separationTime := Scalar.zero
    lines := []
    world }

/-- A whole search. The trail goes back to the root also after a failure; if this fails in turn, its
cause is the one that is reported. -/
def complete (p : Problem α μ σ) (config : SearchConfig α) (steps : Nat) (run : Run α μ σ) :
    Except Fault (Solution α) × Run α μ σ :=
  let (searched, run) := (search p config steps).runOn run
  let (restored, run) := (goHome p).runOn run
  (do let _ ← restored; let _ ← searched; return run.solution p config, run)

end Run

end TourSearch
