import TourSearch.Proofs.Action
import TourSearch.Proofs.Separation.History
import TourSearch.Proofs.Tree
import TourSearch.Search.Solver
import Mathlib

/-!
Single steps of a search. Between its steps a search stands at a `Place`: between two nodes, about
to move to one, before a round of cuts, and so on; `advance` takes one step from one place to the
next. What steps can do is said once: `Moves` lists the steps from each place, `Closes` the ways to
close a node, and `Rounds` the outcomes of a round of cuts. The rest of the module says what steps
leave alone.
-/

namespace TourSearch

open Numeric

namespace Search

variable {α μ σ : Type} [Scalar α]

/-! ### Single steps -/

/-- One round of solving and cutting: the answer that ends the rounds, or none if another round
follows. -/
def cutRound (p : Problem α μ σ) (config : SearchConfig α) (id : Int) (rounds : Int) :
    Action (Run α μ σ) (Option (Answer α)) := do
  match ← Run.solveRelaxation p with
  | .infeasible => return some .infeasible
  | .solved objective values =>
      if (← get).tree.stats.upper - config.gapTolerance ≤ objective then
        return some (.solved objective values)
      else
        let cuts ← Run.separate p config values
        if cuts.isEmpty then return some (.solved objective values)
        else
          let integral ← MonadExcept.ofExcept (values.isIntegral config.integralityTolerance)
          if config.maxCutRounds ≤ rounds ∧ integral = false then
            return some (.solved objective values)
          else
            Run.addCuts p id cuts
            return none

theorem solveWithCuts_succ (p : Problem α μ σ) (config : SearchConfig α) (id : Int) (steps : Nat)
    (rounds : Int) :
    Run.solveWithCuts p config id (steps + 1) rounds =
      cutRound p config id rounds >>= fun
        | some answer => pure answer
        | none => Run.solveWithCuts p config id steps (rounds + 1) := by
  rw [Run.solveWithCuts, cutRound, bind_assoc]
  refine bind_congr fun answer => ?_
  cases answer with
  | infeasible => simp only [pure_bind]
  | solved objective values =>
      simp only [bind_assoc]
      refine bind_congr fun run => ?_
      split
      · simp only [pure_bind]
      · rw [bind_assoc]
        refine bind_congr fun cuts => ?_
        split
        · simp only [pure_bind]
        · rw [bind_assoc]
          refine bind_congr fun integral => ?_
          split
          · simp only [pure_bind]
          · simp only [bind_assoc, pure_bind]

def takeUp (p : Problem α μ σ) (config : SearchConfig α) (h : Handle) :
    Action (Run α μ σ) Unit := do
  modify fun run => { run with
    explored := run.explored + 1
    tree := run.tree.modify h fun n => { n with status := .processing } }
  Run.report p config h

inductive Place (α : Type) where
  | between
  | moving (h : Handle)
  | solving (h : Handle) (rounds : Nat)
  | closing (h : Handle) (answer : Answer α)
  | closed (h : Handle)
  | ended

def advance (p : Problem α μ σ) (config : SearchConfig α) :
    Place α → Action (Run α μ σ) (Place α)
  | .between => do
      let run ← get
      if run.queue.isEmpty || run.limitReached p config then return .ended
      else
        match ← Run.nextNode with
        | none => return .ended
        | some h =>
            takeUp p config h
            return .moving h
  | .moving h => do
      Run.goTo p h
      return .solving h 0
  | .solving h rounds => do
      match ← cutRound p config ((← get).tree.node h).id rounds with
      | none => return .solving h (rounds + 1)
      | some answer => return .closing h answer
  | .closing h answer => do
      Run.close p config h answer
      return .closed h
  | .closed h => do
      Run.onTreeAndWorld (p.afterNode h)
      return .between
  | .ended => return .ended

/-! ### Small steps by their results -/

section Gives

variable {p : Problem α μ σ} {run run' : Run α μ σ} {h : Handle} {fault : Fault}

omit [Scalar α] in
theorem gives_onWorld {β : Type} {x : Action σ β} {b : β} :
    (Run.onWorld x : Action (Run α μ σ) β).Gives run b run' ↔
      ∃ w, x.Gives run.world b w ∧ { run with world := w } = run' := Action.gives_zoom

theorem gives_nextNode {next : Option Handle} :
    (Run.nextNode : Action (Run α μ σ) _).Gives run next run' ↔
      ∃ q, run.queue.pop run.tree = (next, q) ∧ { run with queue := q } = run' := by
  rcases hpop : run.queue.pop run.tree with ⟨popped, q⟩
  simp only [Action.Gives, Action.runOn, Run.nextNode, hpop, Prod.mk.injEq, Except.ok.injEq]
  constructor
  · rintro ⟨rfl, rfl⟩
    exact ⟨q, ⟨rfl, rfl⟩, rfl⟩
  · rintro ⟨q', ⟨rfl, rfl⟩, rfl⟩
    exact ⟨rfl, rfl⟩

theorem gives_goTo :
    (Run.goTo p h).Gives run () run' ↔ ∃ trail world,
      run.trail.transition p.perform ⟨h, (run.tree.node h).decisions⟩ run.world =
        (.ok (), trail, world) ∧ { run with trail, world } = run' := by
  rcases hmove : run.trail.transition p.perform ⟨h, (run.tree.node h).decisions⟩ run.world
    with ⟨result, trail, world⟩
  simp only [Action.Gives, Action.runOn, Run.goTo, hmove, Prod.mk.injEq]
  constructor
  · rintro ⟨rfl, rfl⟩
    exact ⟨trail, world, ⟨rfl, rfl, rfl⟩, rfl⟩
  · rintro ⟨trail', world', ⟨rfl, rfl, rfl⟩, rfl⟩
    exact ⟨rfl, rfl⟩

theorem not_fails_nextNode : ¬(Run.nextNode : Action (Run α μ σ) _).Fails run fault run' := by
  simp [Action.Fails, Action.runOn, Run.nextNode]

end Gives

/-! ### What closing a node can do -/

def solvedNode (z : α) (n : Node α μ) : Node α μ :=
  { n with lpValue := z, lowerBound := Scalar.larger n.lowerBound z }

def solvedTree (t : Tree α μ) (h : Handle) (z : α) : Tree α μ := t.modify h (solvedNode z)

def accepted (t : Tree α μ) (h : Handle) (values : EdgeValues α) : Tree α μ :=
  ((t.modify h fun n => { n with isInteger := true, solution := values }).markProcessed h
    .integer).setIncumbent h

theorem node_accepted_self {t : Tree α μ} {h : Handle} (hlt : h < t.records.size)
    (values : EdgeValues α) : (accepted t h values).node h =
      { t.node h with isInteger := true, solution := values, status := .integer } := by
  show (((t.modify h _).modify h _).node h) = _
  rw [Tree.node_modify_self _ (by simpa using hlt), Tree.node_modify_self _ hlt]

theorem node_accepted_of_ne {t : Tree α μ} {h k : Handle} (hne : k ≠ h) (values : EdgeValues α) :
    (accepted t h values).node k = t.node k := by
  show (((t.modify h _).modify h _).node k) = _
  rw [Tree.node_modify_of_ne _ hne, Tree.node_modify_of_ne _ hne]

def branched (run : Run α μ σ) (h : Handle) (ds : List (Decision μ)) : Run α μ σ :=
  { run with
    tree := (run.tree.createChildren h ds).2
    queue := run.queue.addAll (run.tree.createChildren h ds).2 (run.tree.createChildren h ds).1 }

/-- The bound of a solved node comes within the gap of the upper bound. -/
def Hopeless (config : SearchConfig α) (t : Tree α μ) (h : Handle) (z : α) : Prop :=
  ((solvedTree t h z).node h).reaches t.stats.upper config.gapTolerance = true

/-- A node is closed as infeasible or as hopeless, becomes the incumbent, is given up because there
is no way to split it, or is branched. -/
inductive Closes (p : Problem α μ σ) (config : SearchConfig α) (h : Handle) (run : Run α μ σ) :
    Answer α → Run α μ σ → Prop where
  | infeasible : Closes p config h run .infeasible
      { run with tree := run.tree.markProcessed h .prunedInfeasible }
  | hopeless {z : α} {values : EdgeValues α} (reached : Hopeless config run.tree h z) :
      Closes p config h run (.solved z values)
        { run with tree := (solvedTree run.tree h z).markProcessed h .prunedBound }
  | incumbent {z : α} {values : EdgeValues α} (better : ¬Hopeless config run.tree h z)
      (integral : values.isIntegral config.integralityTolerance = .ok true) :
      Closes p config h run (.solved z values) { run with
        tree := (accepted (solvedTree run.tree h z) h values).pruneByBound.2
        incumbentValues := values
        queue := (run.queue.prune
          (accepted (solvedTree run.tree h z) h values).pruneByBound.2).2 }
  | givenUp {z : α} {values : EdgeValues α} {cs : List (Candidate α μ)} {world : σ}
      (better : ¬Hopeless config run.tree h z)
      (fractional : values.isIntegral config.integralityTolerance = .ok false)
      (proposed : (p.candidates ((solvedTree run.tree h z).node h) values).Gives run.world cs world)
      (none : Candidate.best? cs = none) :
      Closes p config h run (.solved z values)
        { run with tree := (solvedTree run.tree h z).markProcessed h .fathomed, world }
  | branched {z : α} {values : EdgeValues α} {cs : List (Candidate α μ)} {c : Candidate α μ}
      {world : σ} (better : ¬Hopeless config run.tree h z)
      (fractional : values.isIntegral config.integralityTolerance = .ok false)
      (proposed : (p.candidates ((solvedTree run.tree h z).node h) values).Gives run.world cs world)
      (best : Candidate.best? cs = some c) :
      Closes p config h run (.solved z values)
        (branched { run with tree := solvedTree run.tree h z, world } h c.decisions)

theorem closes_of_gives {p : Problem α μ σ} {config : SearchConfig α} {h : Handle}
    {run run' : Run α μ σ} {answer : Answer α}
    (hgives : (Run.close p config h answer).Gives run () run') :
    Closes p config h run answer run' := by
  cases answer with
  | infeasible =>
      rw [Run.close, Run.modifyTree, Action.gives_modify] at hgives
      exact hgives ▸ .infeasible
  | solved z values =>
      simp only [Run.close, Run.modifyTree, Action.gives_bind, Action.gives_modify,
        Action.gives_get] at hgives
      obtain ⟨_, _, rfl, _, _, ⟨rfl, rfl⟩, hgives⟩ := hgives
      split at hgives
      · rename_i hreached
        rw [Action.gives_modify] at hgives
        exact hgives ▸ .hopeless hreached
      · rename_i hbetter
        simp only [Action.gives_bind, Action.gives_ofExcept] at hgives
        obtain ⟨integral, _, ⟨hintegral, rfl⟩, hgives⟩ := hgives
        split at hgives
        · rename_i htrue
          rw [Run.acceptIncumbent, Action.gives_modify] at hgives
          exact hgives ▸ .incumbent hbetter (htrue ▸ hintegral)
        · rename_i hfalse
          rw [Bool.not_eq_true] at hfalse
          simp only [Run.branch, Action.gives_bind, Action.gives_get, gives_onWorld] at hgives
          obtain ⟨_, _, ⟨rfl, rfl⟩, cs, _, ⟨world, hproposed, rfl⟩, hgives⟩ := hgives
          cases hbest : Candidate.best? cs with
          | none =>
              simp only [hbest, Run.modifyTree] at hgives
              rw [Action.gives_modify] at hgives
              exact hgives ▸ .givenUp hbetter (hfalse ▸ hintegral) hproposed hbest
          | some c =>
              simp only [hbest] at hgives
              rw [Action.gives_modify] at hgives
              exact hgives ▸ .branched hbetter (hfalse ▸ hintegral) hproposed hbest

/-! ### What a round of cuts can do -/

/-- What the calls of the partners leave alone. -/
structure Kept (run run' : Run α μ σ) : Prop where
  tree : run'.tree = run.tree
  queue : run'.queue = run.queue
  trail : run'.trail = run.trail
  incumbentValues : run'.incumbentValues = run.incumbentValues
  explored : run'.explored = run.explored
  started : run'.started = run.started

omit [Scalar α] in
theorem Kept.refl (run : Run α μ σ) : Kept run run := ⟨rfl, rfl, rfl, rfl, rfl, rfl⟩

omit [Scalar α] in
theorem Kept.trans {run₁ run₂ run₃ : Run α μ σ} (h₁ : Kept run₁ run₂) (h₂ : Kept run₂ run₃) :
    Kept run₁ run₃ :=
  ⟨h₂.tree.trans h₁.tree, h₂.queue.trans h₁.queue, h₂.trail.trans h₁.trail,
    h₂.incumbentValues.trans h₁.incumbentValues, h₂.explored.trans h₁.explored,
    h₂.started.trans h₁.started⟩

theorem report_spec {p : Problem α μ σ} {config : SearchConfig α} {h : Handle}
    {run run' : Run α μ σ} (hgives : (Run.report p config h).Gives run () run') :
    Kept run run' ∧ run'.world = run.world ∧ run'.separator = run.separator := by
  rw [Run.report] at hgives
  split at hgives
  · split at hgives
    · simp at hgives
    · simp only [Action.gives_bind, Action.gives_get] at hgives
      obtain ⟨_, _, ⟨rfl, rfl⟩, hgives⟩ := hgives
      split at hgives
      · rw [Action.gives_modify] at hgives
        rw [← hgives]
        exact ⟨⟨rfl, rfl, rfl, rfl, rfl, rfl⟩, rfl, rfl⟩
      · rw [Action.gives_pure] at hgives
        rw [← hgives.2]
        exact ⟨Kept.refl run, rfl, rfl⟩
  · rw [Action.gives_pure] at hgives
    rw [← hgives.2]
    exact ⟨Kept.refl run, rfl, rfl⟩

section Rounds

variable {p : Problem Extended μ σ} {config : SearchConfig Extended} {run run' : Run Extended μ σ}

theorem solveRelaxation_spec {answer : Answer Extended}
    (h : (Run.solveRelaxation p).Gives run answer run') :
    Kept run run' ∧ run'.separator = run.separator ∧
      p.solve.Gives run.world answer run'.world := by
  simp only [Run.solveRelaxation, Action.gives_bind, Action.gives_get, Action.gives_modify,
    Action.gives_pure, gives_onWorld] at h
  obtain ⟨_, _, ⟨rfl, rfl⟩, answer', _, ⟨w, hsolve, rfl⟩, _, _, rfl, rfl, rfl⟩ := h
  exact ⟨⟨rfl, rfl, rfl, rfl, rfl, rfl⟩, rfl, hsolve⟩

theorem separate_spec {values : EdgeValues Extended} {cuts : List (Cut Extended)}
    (h : (Run.separate p config values).Gives run cuts run') :
    Kept run run' ∧ run'.world = run.world ∧ run'.separator.Like run.separator ∧
      (Run.separated config run.separator values).1 = .ok cuts := by
  simp only [Run.separate, Action.gives_bind, Action.gives_get, Action.gives_modify,
    Action.gives_pure, Action.gives_ofExcept] at h
  obtain ⟨_, _, ⟨rfl, rfl⟩, _, _, ⟨rfl, rfl⟩, h⟩ := h
  obtain ⟨_, _, rfl, cuts', _, ⟨hfound, rfl⟩, _, _, rfl, rfl, rfl⟩ := h
  exact ⟨⟨rfl, rfl, rfl, rfl, rfl, rfl⟩, rfl, Run.like_separated _ _ _, hfound⟩

theorem addCuts_spec {id : Int} {cuts : List (Cut Extended)}
    (h : (Run.addCuts p id cuts).Gives run () run') :
    Kept run run' ∧ run'.separator = run.separator ∧
      ∃ count, 0 < count ∧ (p.addCuts cuts).Gives run.world count run'.world := by
  simp only [Run.addCuts, Action.gives_bind, Action.gives_modify, gives_onWorld] at h
  obtain ⟨count, _, ⟨w, hadd, rfl⟩, _, _, rfl, h⟩ := h
  split at h
  · simp at h
  · rename_i hpos
    rw [Action.gives_pure] at h
    rw [← h.2]
    exact ⟨⟨rfl, rfl, rfl, rfl, rfl, rfl⟩, rfl, count, by omega, hadd⟩

/-- A round ends with an answer: no solution, one that cannot improve the upper bound, one without
violated cuts, or a fractional one after the last round. Or else violated cuts are added, and
another round follows; after the last round this happens to integral values only. -/
inductive Rounds (p : Problem Extended μ σ) (config : SearchConfig Extended) (rounds : Int)
    (run run' : Run Extended μ σ) : Option (Answer Extended) → Prop where
  | infeasible (solved : p.solve.Gives run.world .infeasible run'.world) :
      Rounds p config rounds run run' (some .infeasible)
  | hopeless {z : Extended} {values : EdgeValues Extended}
      (solved : p.solve.Gives run.world (.solved z values) run'.world)
      (reached : run.tree.stats.upper - config.gapTolerance ≤ z) :
      Rounds p config rounds run run' (some (.solved z values))
  | uncut {z : Extended} {values : EdgeValues Extended}
      (solved : p.solve.Gives run.world (.solved z values) run'.world)
      (found : (Run.separated config run.separator values).1 = .ok []) :
      Rounds p config rounds run run' (some (.solved z values))
  | last {z : Extended} {values : EdgeValues Extended} {cuts : List (Cut Extended)}
      (solved : p.solve.Gives run.world (.solved z values) run'.world)
      (found : (Run.separated config run.separator values).1 = .ok cuts)
      (fractional : values.isIntegral config.integralityTolerance = .ok false) :
      Rounds p config rounds run run' (some (.solved z values))
  | again {z : Extended} {values : EdgeValues Extended} {cuts : List (Cut Extended)} {world : σ}
      {count : Nat} (solved : p.solve.Gives run.world (.solved z values) world)
      (found : (Run.separated config run.separator values).1 = .ok cuts) (violated : cuts ≠ [])
      (taken : 0 < count) (added : (p.addCuts cuts).Gives world count run'.world)
      (whole : config.maxCutRounds ≤ rounds →
        values.isIntegral config.integralityTolerance = .ok true) :
      Rounds p config rounds run run' none

theorem rounds_of_gives {id rounds : Int} {answer : Option (Answer Extended)}
    (hgives : (cutRound p config id rounds).Gives run answer run') :
    Kept run run' ∧ run'.separator.Like run.separator ∧
      Rounds p config rounds run run' answer := by
  rw [cutRound, Action.gives_bind] at hgives
  obtain ⟨first, run₁, hsolve, hgives⟩ := hgives
  obtain ⟨hkept₁, hsep₁, hsolved⟩ := solveRelaxation_spec hsolve
  have hlike₁ : run₁.separator.Like run.separator := hsep₁ ▸ .refl _
  cases first with
  | infeasible =>
      rw [Action.gives_pure] at hgives
      obtain ⟨rfl, rfl⟩ := hgives
      exact ⟨hkept₁, hlike₁, .infeasible hsolved⟩
  | solved z values =>
      simp only [Action.gives_bind, Action.gives_get] at hgives
      obtain ⟨_, _, ⟨rfl, rfl⟩, hgives⟩ := hgives
      split at hgives
      · rename_i hreached
        rw [Action.gives_pure] at hgives
        obtain ⟨rfl, rfl⟩ := hgives
        exact ⟨hkept₁, hlike₁, .hopeless hsolved (hkept₁.tree ▸ hreached)⟩
      · rw [Action.gives_bind] at hgives
        obtain ⟨cuts, run₂, hseparate, hgives⟩ := hgives
        obtain ⟨hkept₂, hworld₂, hlike₂, hfound⟩ := separate_spec hseparate
        rw [hsep₁] at hfound
        have hkept := hkept₁.trans hkept₂
        have hlike := hlike₂.trans hlike₁
        split at hgives
        · rename_i hempty
          rw [Action.gives_pure] at hgives
          obtain ⟨rfl, rfl⟩ := hgives
          rw [List.isEmpty_iff.mp hempty] at hfound
          exact ⟨hkept, hlike, .uncut (hworld₂ ▸ hsolved) hfound⟩
        · rename_i hviolated
          rw [List.isEmpty_iff] at hviolated
          rw [Action.gives_bind] at hgives
          obtain ⟨integral, run₃, hintegral, hgives⟩ := hgives
          rw [Action.gives_ofExcept] at hintegral
          obtain ⟨hintegral, rfl⟩ := hintegral
          split at hgives
          · rename_i hlast
            rw [Action.gives_pure] at hgives
            obtain ⟨rfl, rfl⟩ := hgives
            exact ⟨hkept, hlike, .last (hworld₂ ▸ hsolved) hfound (hlast.2 ▸ hintegral)⟩
          · rename_i hgoesOn
            rw [Action.gives_bind] at hgives
            obtain ⟨_, run₄, hadd, hgives⟩ := hgives
            rw [Action.gives_pure] at hgives
            obtain ⟨rfl, rfl⟩ := hgives
            obtain ⟨hkept₃, hsep₃, count, hpos, hadded⟩ := addCuts_spec hadd
            refine ⟨hkept.trans hkept₃, hsep₃ ▸ hlike, .again hsolved hfound hviolated hpos
              (hworld₂ ▸ hadded) fun hlast => ?_⟩
            cases integral with
            | true => exact hintegral
            | false => exact absurd ⟨hlast, rfl⟩ hgoesOn

end Rounds

/-! ### What a step can do -/

inductive Moves (p : Problem α μ σ) (config : SearchConfig α) :
    Place α → Run α μ σ → Place α → Run α μ σ → Prop where
  | done {run : Run α μ σ} (finished : (run.queue.isEmpty || run.limitReached p config) = true) :
      Moves p config .between run .ended run
  | drained {run : Run α μ σ} {q : OpenQueue α} (popped : run.queue.pop run.tree = (none, q)) :
      Moves p config .between run .ended { run with queue := q }
  | taken {run run' : Run α μ σ} {h : Handle} {q : OpenQueue α}
      (popped : run.queue.pop run.tree = (some h, q))
      (kept : Kept { run with
        explored := run.explored + 1
        queue := q
        tree := run.tree.modify h fun n => { n with status := .processing } } run')
      (world : run'.world = run.world) (separator : run'.separator = run.separator) :
      Moves p config .between run (.moving h) run'
  | moved {run run' : Run α μ σ} {h : Handle} (move : (Run.goTo p h).Gives run () run') :
      Moves p config (.moving h) run (.solving h 0) run'
  | again {run run' : Run α μ σ} {h : Handle} {rounds : Nat}
      (round : (cutRound p config (run.tree.node h).id rounds).Gives run none run') :
      Moves p config (.solving h rounds) run (.solving h (rounds + 1)) run'
  | answered {run run' : Run α μ σ} {h : Handle} {rounds : Nat} {answer : Answer α}
      (round : (cutRound p config (run.tree.node h).id rounds).Gives run (some answer) run') :
      Moves p config (.solving h rounds) run (.closing h answer) run'
  | closed {run run' : Run α μ σ} {h : Handle} {answer : Answer α}
      (close : (Run.close p config h answer).Gives run () run') :
      Moves p config (.closing h answer) run (.closed h) run'
  | returned {run : Run α μ σ} {h : Handle} {t : Tree α μ} {w : σ}
      (after : (p.afterNode h).Gives (run.tree, run.world) () (t, w)) :
      Moves p config (.closed h) run .between { run with tree := t, world := w }
  | rested {run : Run α μ σ} : Moves p config .ended run .ended run

theorem moves_of_gives {p : Problem α μ σ} {config : SearchConfig α} {place place' : Place α}
    {run run' : Run α μ σ} (next : (advance p config place).Gives run place' run') :
    Moves p config place run place' run' := by
  cases place with
  | between =>
      simp only [advance, Action.gives_bind, Action.gives_get] at next
      obtain ⟨_, _, ⟨rfl, rfl⟩, next⟩ := next
      split at next
      · rename_i hfinished
        obtain ⟨rfl, rfl⟩ := Action.gives_pure.mp next
        exact .done hfinished
      · obtain ⟨chosen, run₁, hnext, next⟩ := Action.gives_bind.mp next
        obtain ⟨q, hpop, rfl⟩ := gives_nextNode.mp hnext
        cases chosen with
        | none =>
            obtain ⟨rfl, rfl⟩ := Action.gives_pure.mp next
            exact .drained hpop
        | some h =>
            simp only [takeUp, Action.gives_bind, Action.gives_modify, Action.gives_pure] at next
            obtain ⟨_, run₂, ⟨_, _, rfl, hreport⟩, rfl, rfl⟩ := next
            obtain ⟨hkept, hworld, hseparator⟩ := report_spec hreport
            exact .taken hpop hkept hworld hseparator
  | moving h =>
      obtain ⟨_, _, hgoTo, hdone⟩ := Action.gives_bind.mp next
      obtain ⟨rfl, rfl⟩ := Action.gives_pure.mp hdone
      exact .moved hgoTo
  | solving h rounds =>
      simp only [advance, Action.gives_bind, Action.gives_get] at next
      obtain ⟨_, _, ⟨rfl, rfl⟩, answer, _, hround, hdone⟩ := next
      cases answer with
      | none =>
          obtain ⟨rfl, rfl⟩ := Action.gives_pure.mp hdone
          exact .again hround
      | some answer =>
          obtain ⟨rfl, rfl⟩ := Action.gives_pure.mp hdone
          exact .answered hround
  | closing h answer =>
      obtain ⟨_, _, hclose, hdone⟩ := Action.gives_bind.mp next
      obtain ⟨rfl, rfl⟩ := Action.gives_pure.mp hdone
      exact .closed hclose
  | closed h =>
      simp only [advance, Run.onTreeAndWorld, Action.gives_bind, Action.gives_zoom,
        Action.gives_pure] at next
      obtain ⟨_, _, ⟨⟨t, w⟩, hafter, rfl⟩, rfl, rfl⟩ := next
      exact .returned hafter
  | ended =>
      obtain ⟨rfl, rfl⟩ := Action.gives_pure.mp next
      exact .rested

/-! ### What single steps leave alone -/

section Leaves

variable {τ : Type} {v : Run α μ σ → τ} {p : Problem α μ σ} {config : SearchConfig α} {h : Handle}

/-- A part of a run apart from the accounts that the search keeps of its own work. -/
def Essential (v : Run α μ σ → τ) : Prop :=
  ∀ run separator cutsAdded relaxationTime separationTime lines,
    v { run with separator, cutsAdded, relaxationTime, separationTime, lines } = v run

theorem leaves_solveRelaxation (hpart : Essential v)
    (hsolve : (Run.onWorld p.solve : Action (Run α μ σ) _).Leaves v) :
    (Run.solveRelaxation p).Leaves v :=
  Action.leaves_get.bind fun _ => hsolve.bind fun answer =>
    (Action.leaves_modify fun run => hpart run run.separator run.cutsAdded _ run.separationTime
      run.lines).bind fun _ => Action.leaves_pure answer

theorem leaves_separate (hpart : Essential v) (values : EdgeValues α) :
    (Run.separate p config values).Leaves v :=
  Action.leaves_get.bind fun _ => Action.leaves_get.bind fun _ =>
    (Action.leaves_modify fun run => hpart run _ run.cutsAdded run.relaxationTime
      run.separationTime run.lines).bind fun _ =>
        (Action.leaves_ofExcept _).bind fun cuts =>
          (Action.leaves_modify fun run => hpart run run.separator run.cutsAdded
            run.relaxationTime _ run.lines).bind fun _ => Action.leaves_pure cuts

omit [Scalar α] in
theorem leaves_addCuts (hpart : Essential v) {cuts : List (Cut α)}
    (hadd : (Run.onWorld (p.addCuts cuts) : Action (Run α μ σ) _).Leaves v) (id : Int) :
    (Run.addCuts p id cuts).Leaves v := by
  refine hadd.bind fun count => ?_
  refine (Action.leaves_modify fun run => hpart run run.separator _ run.relaxationTime
    run.separationTime run.lines).bind fun _ => ?_
  split
  · exact Action.leaves_throw _
  · exact Action.leaves_pure _

theorem leaves_cutRound (hpart : Essential v)
    (hsolve : (Run.onWorld p.solve : Action (Run α μ σ) _).Leaves v)
    (hadd : ∀ cuts, (Run.onWorld (p.addCuts cuts) : Action (Run α μ σ) _).Leaves v)
    (id rounds : Int) : (cutRound p config id rounds).Leaves v := by
  refine (leaves_solveRelaxation hpart hsolve).bind fun answer => ?_
  cases answer with
  | infeasible => exact Action.leaves_pure _
  | solved objective values =>
      refine Action.leaves_get.bind fun _ => ?_
      split
      · exact Action.leaves_pure _
      · refine (leaves_separate hpart values).bind fun cuts => ?_
        split
        · exact Action.leaves_pure _
        · refine (Action.leaves_ofExcept _).bind fun integral => ?_
          split
          · exact Action.leaves_pure _
          · exact (leaves_addCuts hpart (hadd cuts) id).bind fun _ => Action.leaves_pure none

theorem tree_cutRound {id rounds : Int} : (cutRound p config id rounds).Leaves (·.tree) :=
  leaves_cutRound (fun _ _ _ _ _ _ => rfl) (fun _ => rfl) (fun _ _ => rfl) _ _

theorem explored_cutRound {id rounds : Int} : (cutRound p config id rounds).Leaves (·.explored) :=
  leaves_cutRound (fun _ _ _ _ _ _ => rfl) (fun _ => rfl) (fun _ _ => rfl) _ _

theorem queue_cutRound {id rounds : Int} : (cutRound p config id rounds).Leaves (·.queue) :=
  leaves_cutRound (fun _ _ _ _ _ _ => rfl) (fun _ => rfl) (fun _ _ => rfl) _ _

theorem leaves_report (hpart : Essential v) : (Run.report p config h).Leaves v := by
  unfold Run.report
  split
  · split
    · exact Action.leaves_throw _
    · refine Action.leaves_get.bind fun _ => ?_
      split
      · exact Action.leaves_modify fun run => hpart run run.separator run.cutsAdded
          run.relaxationTime run.separationTime _
      · exact Action.leaves_pure _
  · exact Action.leaves_pure _

theorem leaves_takeUp (hpart : Essential v)
    (hpart' : ∀ run explored tree, v { run with explored, tree } = v run) :
    (takeUp p config h).Leaves v :=
  (Action.leaves_modify fun run => hpart' run _ _).bind fun _ => leaves_report hpart

omit [Scalar α] in
theorem leaves_afterNode (hpart : ∀ run tree world, v { run with tree, world } = v run) :
    (Run.onTreeAndWorld (p.afterNode h)).Leaves v := fun run => hpart run _ _

theorem leaves_goTo (hpart : ∀ run trail world, v { run with trail, world } = v run) :
    (Run.goTo p h).Leaves v := fun run => hpart run _ _

omit [Scalar α] in
theorem leaves_goHome (hpart : ∀ run trail world, v { run with trail, world } = v run) :
    (Run.goHome p).Leaves v := by
  intro run
  simp only [Action.runOn, Run.goHome]
  split
  · exact hpart run _ _
  · rfl

theorem leaves_close
    (hpart : ∀ run tree queue incumbentValues,
      v { run with tree, queue, incumbentValues } = v run)
    (hcandidates : ∀ n values,
      (Run.onWorld (p.candidates n values) : Action (Run α μ σ) _).Leaves v)
    (answer : Answer α) : (Run.close p config h answer).Leaves v := by
  have htree : ∀ f : Tree α μ → Tree α μ, (Run.modifyTree f : Action (Run α μ σ) _).Leaves v :=
    fun f => Action.leaves_modify fun run => hpart run _ run.queue run.incumbentValues
  cases answer with
  | infeasible => exact htree _
  | solved objective values =>
      refine (htree _).bind fun _ => Action.leaves_get.bind fun run => ?_
      dsimp only
      split
      · exact htree _
      · refine (Action.leaves_ofExcept _).bind fun integral => ?_
        split
        · exact Action.leaves_modify fun run => hpart run _ _ _
        · refine Action.leaves_get.bind fun run => (hcandidates _ _).bind fun cs => ?_
          split
          · exact htree _
          · exact Action.leaves_modify fun run => hpart run _ _ run.incumbentValues

end Leaves

end Search

end TourSearch
