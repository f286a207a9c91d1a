import TourSearch.Proofs.Search.Step
import Mathlib

/-!
The course of a search, step by step. `Reaches` are the places and states that a search comes to. A
search that ends has reached its end (`Reaches.exploreAll`), and one that fails has come to a place
where the next step fails, unless it was given too few steps (`Reaches.stops_exploreAll`). What
every search keeps is therefore proved by showing that `advance` keeps it.
-/

namespace TourSearch

namespace Search

variable {α μ σ : Type} [Scalar α]

/-- The places and states that a search comes to. -/
inductive Reaches (p : Problem α μ σ) (config : SearchConfig α) (start : Run α μ σ) :
    Place α → Run α μ σ → Prop where
  | start : Reaches p config start .between start
  | step {place place' : Place α} {run run' : Run α μ σ} (before : Reaches p config start place run)
      (next : (advance p config place).Gives run place' run') : Reaches p config start place' run'

variable {p : Problem α μ σ} {config : SearchConfig α} {start run run' : Run α μ σ} {h : Handle}
  {fault : Fault}

def outset (s : Solver α μ σ) : Run α μ σ :=
  Run.start s.problem s.queue s.separator s.listeners s.world

/-- A search fails at a place that it has come to, or is given too few steps: too few nodes, or too
few rounds at a node. -/
inductive Stops (p : Problem α μ σ) (config : SearchConfig α) (start : Run α μ σ) (steps : Nat) :
    Fault → Run α μ σ → Prop where
  | failure {place : Place α} {run run' : Run α μ σ} {fault : Fault}
      (reached : Reaches p config start place run)
      (failed : (advance p config place).Fails run fault run') :
      Stops p config start steps fault run'
  | rounds {h : Handle} {run : Run α μ σ}
      (reached : Reaches p config start (.solving h steps) run) :
      Stops p config start steps .outOfSteps run
  | nodes {run : Run α μ σ} (reached : Reaches p config start .between run)
      (explored : start.explored + steps ≤ run.explored) :
      Stops p config start steps .outOfSteps run

/-! ### Following a search

The steps are functions, so a given search can be followed by computing its places one after the
other. -/

def orbit (p : Problem α μ σ) (config : SearchConfig α) (start : Run α μ σ) :
    Nat → Option (Place α × Run α μ σ)
  | 0 => some (.between, start)
  | n + 1 =>
      match orbit p config start n with
      | none => none
      | some (.ended, _) => none
      | some (place, run) =>
          match (advance p config place).runOn run with
          | (.ok place', run') => some (place', run')
          | (.error _, _) => none

theorem orbit_succ_of_none {n : Nat} (hnone : orbit p config start n = none) :
    orbit p config start (n + 1) = none := by
  rw [orbit, hnone]

theorem orbit_add_of_none {n : Nat} (hnone : orbit p config start n = none) (k : Nat) :
    orbit p config start (n + k) = none := by
  induction k with
  | zero => exact hnone
  | succ k ih => exact orbit_succ_of_none ih

theorem Reaches.mem_orbit {place : Place α} (hreached : Reaches p config start place run) :
    ∃ n, orbit p config start n = some (place, run) := by
  induction hreached with
  | start => exact ⟨0, rfl⟩
  | @step place place' run run' _ next ih =>
      obtain ⟨n, hn⟩ := ih
      cases place with
      | ended =>
          -- Nothing happens at the end.
          rw [advance, Action.gives_pure] at next
          exact ⟨n, by rw [hn, next.1, next.2]⟩
      | _ => exact ⟨n + 1, by simp only [orbit, hn]; rw [show _ = _ from next]⟩

theorem exists_of_orbit_succ {n : Nat} {y : Place α × Run α μ σ}
    (hy : orbit p config start (n + 1) = some y) :
    ∃ x, orbit p config start n = some x ∧ (advance p config x.1).Gives x.2 y.1 y.2 := by
  rw [orbit] at hy
  split at hy
  · cases hy
  · cases hy
  · rename_i place run _ hn
    split at hy
    · rename_i place' run' hnext
      obtain rfl := Option.some.inj hy
      exact ⟨(place, run), hn, hnext⟩
    · cases hy

theorem reaches_of_mem_orbit {n : Nat} {x : Place α × Run α μ σ}
    (hx : orbit p config start n = some x) : Reaches p config start x.1 x.2 := by
  induction n generalizing x with
  | zero =>
      rw [orbit, Option.some.injEq] at hx
      exact hx ▸ .start
  | succ n ih =>
      obtain ⟨before, hbefore, hnext⟩ := exists_of_orbit_succ hx
      exact (ih hbefore).step hnext

inductive Spot where
  | between
  | moving (h : Nat)
  | solving (h : Nat) (rounds : Nat)
  | closing (h : Nat)
  | closed (h : Nat)
  | ended
deriving DecidableEq

def Place.spot : Place α → Spot
  | .between => .between
  | .moving h => .moving h
  | .solving h rounds => .solving h rounds
  | .closing h _ => .closing h
  | .closed h => .closed h
  | .ended => .ended

omit [Scalar α] in
theorem Place.eq_solving {place : Place α} {rounds : Nat} (hspot : place.spot = .solving h rounds) :
    place = .solving h rounds := by
  cases place <;> cases hspot
  rfl

omit [Scalar α] in
theorem Place.eq_closed {place : Place α} (hspot : place.spot = .closed h) : place = .closed h := by
  cases place <;> cases hspot
  rfl

omit [Scalar α] in
theorem Place.eq_closing {place : Place α} (hspot : place.spot = .closing h) :
    ∃ answer, place = .closing h answer := by
  cases place <;> cases hspot
  exact ⟨_, rfl⟩

/-- A search that is followed for a number of steps comes to where they lead. -/
theorem exists_reaches {n : Nat} {spot : Spot} {P : Run α μ σ → Prop} [DecidablePred P]
    (hthere : (orbit p config start n).any (fun x => decide (x.1.spot = spot ∧ P x.2)) = true) :
    ∃ place run, Reaches p config start place run ∧ place.spot = spot ∧ P run := by
  obtain ⟨x, hx, hfacts⟩ := (Option.any_eq_true _ _).mp hthere
  exact ⟨x.1, x.2, reaches_of_mem_orbit hx, of_decide_eq_true hfacts⟩

/-- What holds along a finite orbit holds wherever the search comes to. -/
theorem Reaches.of_orbit {P : Place α → Run α μ σ → Prop} {bound : Nat}
    (hend : orbit p config start bound = none)
    (hall : ∀ n < bound, ∀ x ∈ orbit p config start n, P x.1 x.2) {place : Place α}
    (hreached : Reaches p config start place run) : P place run := by
  obtain ⟨n, hn⟩ := hreached.mem_orbit
  refine hall n ?_ (place, run) hn
  by_contra hge
  have hnone := orbit_add_of_none hend (n - bound)
  rw [Nat.add_sub_cancel' (Nat.le_of_not_lt hge), hn] at hnone
  cases hnone

/-- The separator changes in nothing but its weights. -/
theorem Reaches.like {p : Problem Numeric.Extended μ σ} {config : SearchConfig Numeric.Extended}
    {start run : Run Numeric.Extended μ σ} {place : Place Numeric.Extended}
    (hreached : Reaches p config start place run) : run.separator.Like start.separator := by
  induction hreached with
  | start => exact .refl _
  | step _ next ih =>
      cases moves_of_gives next with
      | done => exact ih
      | drained => exact ih
      | taken _ _ _ separator => exact separator ▸ ih
      | moved move =>
          obtain ⟨trail, world, -, rfl⟩ := gives_goTo.mp move
          exact ih
      | again round => exact (rounds_of_gives round).2.1.trans ih
      | answered round => exact (rounds_of_gives round).2.1.trans ih
      | closed close =>
          have hsame := (leaves_close (v := (·.separator)) (fun _ _ _ _ => rfl) (fun _ _ _ => rfl)
            _).of_gives close
          exact hsame ▸ ih
      | returned => exact ih
      | rested => exact ih

/-! ### Searches as sequences of steps -/

theorem explore_eq (steps : Nat) (h : Handle) :
    Run.explore p config steps h = (do
      takeUp p config h
      Run.goTo p h
      let answer ← Run.solveWithCuts p config ((← get).tree.node h).id steps 0
      Run.close p config h answer
      Run.onTreeAndWorld (p.afterNode h)) := by
  rw [Run.explore, takeUp, bind_assoc]

theorem Reaches.round {rounds : Nat} {answer : Option (Answer α)}
    (hreached : Reaches p config start (.solving h rounds) run)
    (hround : (cutRound p config (run.tree.node h).id rounds).Gives run answer run') :
    Reaches p config start (answer.elim (.solving h (rounds + 1)) (.closing h)) run' := by
  refine hreached.step ?_
  simp only [advance, Action.gives_bind, Action.gives_get]
  refine ⟨run, run, ⟨rfl, rfl⟩, answer, run', hround, ?_⟩
  cases answer with
  | none => simp
  | some answer => simp

theorem Reaches.solveWithCuts {rounds fuel : Nat} {answer : Answer α}
    (hreached : Reaches p config start (.solving h rounds) run)
    (hgives : (Run.solveWithCuts p config (run.tree.node h).id fuel rounds).Gives run answer run') :
    Reaches p config start (.closing h answer) run' ∧ run'.explored = run.explored := by
  induction fuel generalizing run rounds with
  | zero => simp [Run.solveWithCuts] at hgives
  | succ fuel ih =>
      rw [solveWithCuts_succ, Action.gives_bind] at hgives
      obtain ⟨first, run₁, hround, hgives⟩ := hgives
      have hreached₁ := hreached.round hround
      have hexplored : run₁.explored = run.explored := explored_cutRound.of_gives hround
      cases first with
      | some answer' =>
          rw [Action.gives_pure] at hgives
          obtain ⟨rfl, rfl⟩ := hgives
          exact ⟨hreached₁, hexplored⟩
      | none =>
          have htree : run₁.tree = run.tree := tree_cutRound.of_gives hround
          rw [← htree] at hgives
          obtain ⟨hreached', hexplored'⟩ := ih hreached₁ (by push_cast; exact hgives)
          exact ⟨hreached', hexplored'.trans hexplored⟩

theorem Reaches.stops_solveWithCuts {rounds fuel : Nat}
    (hreached : Reaches p config start (.solving h rounds) run)
    (hfails : (Run.solveWithCuts p config (run.tree.node h).id fuel rounds).Fails run fault run') :
    Stops p config start (rounds + fuel) fault run' := by
  induction fuel generalizing run rounds with
  | zero =>
      rw [Run.solveWithCuts, Action.fails_throw] at hfails
      obtain ⟨rfl, rfl⟩ := hfails
      exact .rounds hreached
  | succ fuel ih =>
      rw [solveWithCuts_succ, Action.fails_bind] at hfails
      rcases hfails with hround | ⟨first, run₁, hround, hfails⟩
      · refine .failure hreached ?_
        simp only [advance, Action.fails_bind, Action.gives_get]
        exact Or.inr ⟨run, run, ⟨rfl, rfl⟩, Or.inl hround⟩
      · have hreached₁ := hreached.round hround
        cases first with
        | some answer => simp at hfails
        | none =>
            have htree : run₁.tree = run.tree := tree_cutRound.of_gives hround
            rw [← htree] at hfails
            have := ih hreached₁ (by push_cast; exact hfails)
            rwa [Nat.add_assoc, Nat.add_comm 1] at this

theorem Reaches.takeUp {q : OpenQueue α} (hreached : Reaches p config start .between run)
    (hopen : ¬(run.queue.isEmpty || run.limitReached p config) = true)
    (hpop : run.queue.pop run.tree = (some h, q))
    (htake : (Search.takeUp p config h).Gives { run with queue := q } () run') :
    Reaches p config start (.moving h) run' := by
  refine hreached.step ?_
  simp only [advance, Action.gives_bind, Action.gives_get]
  refine ⟨run, run, ⟨rfl, rfl⟩, ?_⟩
  rw [if_neg hopen, Action.gives_bind]
  refine ⟨some h, _, gives_nextNode.mpr ⟨q, hpop, rfl⟩, ?_⟩
  exact Action.gives_bind.mpr ⟨(), run', htake, Action.gives_pure.mpr ⟨rfl, rfl⟩⟩

theorem Reaches.goTo (hreached : Reaches p config start (.moving h) run)
    (hgoTo : (Run.goTo p h).Gives run () run') : Reaches p config start (.solving h 0) run' :=
  hreached.step (Action.gives_bind.mpr ⟨(), run', hgoTo, Action.gives_pure.mpr ⟨rfl, rfl⟩⟩)

theorem Reaches.close {answer : Answer α}
    (hreached : Reaches p config start (.closing h answer) run)
    (hclose : (Run.close p config h answer).Gives run () run') :
    Reaches p config start (.closed h) run' :=
  hreached.step (Action.gives_bind.mpr ⟨(), run', hclose, Action.gives_pure.mpr ⟨rfl, rfl⟩⟩)

theorem Reaches.afterNode (hreached : Reaches p config start (.closed h) run)
    (hafter : (Run.onTreeAndWorld (p.afterNode h)).Gives run () run') :
    Reaches p config start .between run' :=
  hreached.step (Action.gives_bind.mpr ⟨(), run', hafter, Action.gives_pure.mpr ⟨rfl, rfl⟩⟩)

theorem Reaches.explore {q : OpenQueue α} {steps : Nat}
    (hreached : Reaches p config start .between run)
    (hopen : ¬(run.queue.isEmpty || run.limitReached p config) = true)
    (hpop : run.queue.pop run.tree = (some h, q))
    (hgives : (Run.explore p config steps h).Gives { run with queue := q } () run') :
    Reaches p config start .between run' ∧ run'.explored = run.explored + 1 := by
  simp only [explore_eq, Action.gives_bind, Action.gives_get] at hgives
  obtain ⟨_, run₁, htake, _, run₂, hgoTo, _, _, ⟨rfl, rfl⟩, answer, run₃, hsolve, hgives⟩ := hgives
  obtain ⟨_, run₄, hclose, hafter⟩ := hgives
  obtain ⟨hreached₃, hexplored₃⟩ := ((hreached.takeUp hopen hpop htake).goTo hgoTo).solveWithCuts
    (by push_cast; exact hsolve)
  refine ⟨(hreached₃.close hclose).afterNode hafter, ?_⟩
  have htaken : run₁.explored = run.explored + 1 := by
    obtain ⟨_, run₀, hmodify, hreport⟩ := Action.gives_bind.mp htake
    rw [Action.gives_modify] at hmodify
    rw [(leaves_report (v := (·.explored)) (fun _ _ _ _ _ _ => rfl)).of_gives hreport, ← hmodify]
  calc run'.explored
      = run₄.explored := (leaves_afterNode (v := (·.explored)) fun _ _ _ => rfl).of_gives hafter
    _ = run₃.explored := (leaves_close (v := (·.explored)) (fun _ _ _ _ => rfl)
        (fun _ _ _ => rfl) answer).of_gives hclose
    _ = run₂.explored := hexplored₃
    _ = run₁.explored := (leaves_goTo (v := (·.explored)) fun _ _ _ => rfl).of_gives hgoTo
    _ = run.explored + 1 := htaken

theorem Reaches.stops_explore {q : OpenQueue α} {steps : Nat}
    (hreached : Reaches p config start .between run)
    (hopen : ¬(run.queue.isEmpty || run.limitReached p config) = true)
    (hpop : run.queue.pop run.tree = (some h, q))
    (hfails : (Run.explore p config steps h).Fails { run with queue := q } fault run') :
    Stops p config start steps fault run' := by
  simp only [explore_eq, Action.fails_bind, Action.gives_get] at hfails
  rcases hfails with htake | ⟨_, run₁, htake, hfails⟩
  · refine .failure hreached ?_
    simp only [advance, Action.fails_bind, Action.gives_get]
    refine Or.inr ⟨run, run, ⟨rfl, rfl⟩, ?_⟩
    rw [if_neg hopen, Action.fails_bind]
    exact Or.inr ⟨some h, _, gives_nextNode.mpr ⟨q, hpop, rfl⟩,
      Action.fails_bind.mpr (Or.inl htake)⟩
  have hreached₁ := hreached.takeUp hopen hpop htake
  rcases hfails with hgoTo | ⟨_, run₂, hgoTo, hfails⟩
  · exact .failure hreached₁ (Action.fails_bind.mpr (Or.inl hgoTo))
  have hreached₂ := hreached₁.goTo hgoTo
  rcases hfails with hget | ⟨_, _, ⟨rfl, rfl⟩, hfails⟩
  · simp at hget
  rcases hfails with hsolve | ⟨answer, run₃, hsolve, hfails⟩
  · simpa using hreached₂.stops_solveWithCuts (by push_cast; exact hsolve)
  have hreached₃ := (hreached₂.solveWithCuts (by push_cast; exact hsolve)).1
  rcases hfails with hclose | ⟨_, run₄, hclose, hafter⟩
  · exact .failure hreached₃ (Action.fails_bind.mpr (Or.inl hclose))
  · exact .failure (hreached₃.close hclose) (Action.fails_bind.mpr (Or.inl hafter))

/-- A search that comes to an end has reached it step by step. -/
theorem Reaches.exploreAll {steps count : Nat} (hreached : Reaches p config start .between run)
    (hgives : (Run.exploreAll p config steps count).Gives run () run') :
    Reaches p config start .ended run' := by
  induction count generalizing run with
  | zero => simp [Run.exploreAll] at hgives
  | succ count ih =>
      simp only [Run.exploreAll, Action.gives_bind, Action.gives_get] at hgives
      obtain ⟨_, _, ⟨rfl, rfl⟩, hgives⟩ := hgives
      split at hgives
      · rename_i hdone
        rw [Action.gives_pure] at hgives
        obtain ⟨-, rfl⟩ := hgives
        refine hreached.step ?_
        simp only [advance, Action.gives_bind, Action.gives_get]
        exact ⟨run, run, ⟨rfl, rfl⟩, by rw [if_pos hdone, Action.gives_pure]; exact ⟨rfl, rfl⟩⟩
      · rename_i hopen
        rw [Action.gives_bind] at hgives
        obtain ⟨next, run₁, hnext, hgives⟩ := hgives
        obtain ⟨q, hpop, rfl⟩ := gives_nextNode.mp hnext
        cases next with
        | none =>
            rw [Action.gives_pure] at hgives
            obtain ⟨-, rfl⟩ := hgives
            refine hreached.step ?_
            simp only [advance, Action.gives_bind, Action.gives_get]
            refine ⟨run, run, ⟨rfl, rfl⟩, ?_⟩
            rw [if_neg hopen, Action.gives_bind]
            exact ⟨none, _, hnext, Action.gives_pure.mpr ⟨rfl, rfl⟩⟩
        | some h =>
            rw [Action.gives_bind] at hgives
            obtain ⟨_, run₂, hexplore, hgives⟩ := hgives
            exact ih (hreached.explore hopen hpop hexplore).1 hgives

/-- A search that fails has come to a place where the next step fails, or has used up its steps. -/
theorem Reaches.stops_exploreAll {steps count : Nat}
    (hreached : Reaches p config start .between run)
    (hcount : start.explored + steps ≤ run.explored + count)
    (hfails : (Run.exploreAll p config steps count).Fails run fault run') :
    Stops p config start steps fault run' := by
  induction count generalizing run with
  | zero =>
      rw [Run.exploreAll, Action.fails_throw] at hfails
      obtain ⟨rfl, rfl⟩ := hfails
      exact .nodes hreached hcount
  | succ count ih =>
      simp only [Run.exploreAll, Action.fails_bind, Action.gives_get] at hfails
      rcases hfails with hget | ⟨_, _, ⟨rfl, rfl⟩, hfails⟩
      · simp at hget
      split at hfails
      · simp at hfails
      · rename_i hopen
        rw [Action.fails_bind] at hfails
        rcases hfails with hnext | ⟨next, run₁, hnext, hfails⟩
        · exact absurd hnext not_fails_nextNode
        obtain ⟨q, hpop, rfl⟩ := gives_nextNode.mp hnext
        cases next with
        | none => simp at hfails
        | some h =>
            rw [Action.fails_bind] at hfails
            rcases hfails with hexplore | ⟨_, run₂, hexplore, hfails⟩
            · exact hreached.stops_explore hopen hpop hexplore
            · obtain ⟨hreached₂, hexplored₂⟩ := hreached.explore hopen hpop hexplore
              exact ih hreached₂ (by omega) hfails

/-- When the trail comes home, a whole search ends as its exploration did. -/
theorem complete_of_goHome {steps : Nat}
    (hhome : (Run.goHome p).Gives ((Run.search p config steps).runOn run).2 () run') :
    run.complete p config steps =
      (((Run.search p config steps).runOn run).1.map fun _ => run'.solution p config, run') := by
  rcases hsearch : (Run.search p config steps).runOn run with ⟨_ | _, run₁⟩ <;>
    rw [hsearch] at hhome
  · simp only [Run.complete, hsearch, show (Run.goHome p).runOn run₁ = _ from hhome]
    rfl
  · simp only [Run.complete, hsearch, show (Run.goHome p).runOn run₁ = _ from hhome]
    rfl

/-- A search with a result has come to its end, and its trail has come home. -/
theorem Reaches.complete {steps : Nat} {solution : Solution α}
    (hcomplete : start.complete p config steps = (.ok solution, run')) :
    ∃ run₁, Reaches p config start .ended run₁ ∧
      (Run.goHome p).Gives { run₁ with
        tree := run₁.tree.setLower
          (Scalar.smaller (run₁.queue.bestBound run₁.tree) run₁.tree.stats.upper) } () run' ∧
      solution = run'.solution p config := by
  rcases hsearch : (Run.search p config steps).runOn start with ⟨searched, run₂⟩
  rcases hhome : (Run.goHome p).runOn run₂ with ⟨restored, run₃⟩
  simp only [Run.complete, hsearch, hhome, Prod.mk.injEq] at hcomplete
  obtain ⟨hok, rfl⟩ := hcomplete
  obtain ⟨_, rfl, hok₁⟩ := except_bind_eq_ok.mp hok
  obtain ⟨_, rfl, hok₂⟩ := except_bind_eq_ok.mp hok₁
  have hgives : (Run.search p config steps).Gives start () run₂ := hsearch
  simp only [Run.search, Action.gives_bind, Action.gives_modify] at hgives
  obtain ⟨_, run₁, hexplore, rfl⟩ := hgives
  exact ⟨run₁, Reaches.start.exploreAll hexplore, hhome, (Except.ok.inj hok₂).symm⟩

end Search

end TourSearch
