import TourSearch.Proofs.Search.Improvement
import TourSearch.Proofs.Search.Totality
import Mathlib

/-!
The status of a search that has returned. It is worked out when the loop is over, from the queue,
the gap and another reading of the clock, and not from the reason for which the loop was left. The
two agree. A loop that is left while nodes are open has reached a limit (`Reaches.ended`), and a
limit once reached stays reached, because the clock does not go back (`Steady.reaches`) and the
number of nodes does not fall. No node is taken up at the limit, so that the number of nodes is
never above it (`Reaches.explored_le`).
-/

namespace TourSearch

open Numeric

namespace Search

variable {μ σ : Type} {p : Problem Extended μ σ} {config : SearchConfig Extended}
  {start run run' : Run Extended μ σ} {place place' : Place Extended} {h : Handle} {w w' : σ}
  {gap : Rat}

/-! ### The clock -/

/-- A clock that shows a number does not go back from one world to another. -/
def Later (p : Problem Extended μ σ) (w w' : σ) : Prop :=
  p.now w ≠ .undefined → p.now w ≤ p.now w'

theorem Later.refl (p : Problem Extended μ σ) (w : σ) : Later p w w := Extended.le_refl

theorem Later.trans {w₁ w₂ w₃ : σ} (h₁ : Later p w₁ w₂) (h₂ : Later p w₂ w₃) : Later p w₁ w₃ :=
  fun hnumber => Extended.le_trans (h₁ hnumber) (h₂ (Extended.ne_undefined_of_le (h₁ hnumber)).2)

structure Steady (p : Problem Extended μ σ) : Prop where
  solve : ∀ {answer w w'}, p.solve.Gives w answer w' → Later p w w'
  addCuts : ∀ {cuts count w w'}, (p.addCuts cuts).Gives w count w' → Later p w w'
  perform : ∀ {call w w'}, (p.perform call).Gives w () w' → Later p w w'
  candidates : ∀ {n values cs w w'}, (p.candidates n values).Gives w cs w' → Later p w w'
  afterNode : ∀ {h t t' w w'}, (p.afterNode h).Gives (t, w) () (t', w') → Later p w w'

namespace Steady

theorem performs (hclock : Steady p) {calls : List (Call μ)}
    (hperforms : Trail.Performs p.perform calls w w') : Later p w w' := by
  induction hperforms with
  | nil w => exact .refl p w
  | cons first _ ih => exact (hclock.perform first).trans ih

theorem goTo (hclock : Steady p) (hmove : (Run.goTo p h).Gives run () run') :
    Later p run.world run'.world := by
  obtain ⟨trail, world, hmoved, rfl⟩ := gives_goTo.mp hmove
  exact hclock.performs (Trail.moveTo_ok hmoved).1

theorem goHome (hclock : Steady p) (hhome : (Run.goHome p).Gives run () run') :
    Later p run.world run'.world := by
  simp only [Action.Gives, Action.runOn, Run.goHome] at hhome
  split at hhome
  · rcases hrestore : run.trail.restore p.perform run.world with ⟨result, trail, world⟩
    simp only [hrestore, Prod.mk.injEq] at hhome
    obtain ⟨rfl, rfl⟩ := hhome
    exact hclock.performs (Trail.restore_ok hrestore).2
  · rw [← (Prod.mk.inj hhome).2]
    exact .refl p run.world

theorem round (hclock : Steady p) {rounds : Int} {answer : Option (Answer Extended)}
    (hround : Rounds p config rounds run run' answer) : Later p run.world run'.world := by
  cases hround with
  | infeasible solved | hopeless solved | uncut solved | last solved => exact hclock.solve solved
  | again solved _ _ _ added => exact (hclock.solve solved).trans (hclock.addCuts added)

theorem close (hclock : Steady p) {answer : Answer Extended}
    (hcloses : Closes p config h run answer run') : Later p run.world run'.world := by
  cases hcloses with
  | infeasible | hopeless | incumbent => exact .refl p run.world
  | givenUp _ _ proposed | branched _ _ proposed => exact hclock.candidates proposed

theorem advance (hclock : Steady p)
    (next : (Search.advance p config place).Gives run place' run') :
    Later p run.world run'.world := by
  cases moves_of_gives next with
  | done | drained | rested => exact .refl p run.world
  | taken _ _ world =>
      rw [world]
      exact .refl p run.world
  | moved move => exact hclock.goTo move
  | again round | answered round => exact hclock.round (rounds_of_gives round).2.2
  | closed close => exact hclock.close (closes_of_gives close)
  | returned after => exact hclock.afterNode after

theorem reaches (hclock : Steady p) (hreached : Reaches p config start place run) :
    Later p start.world run.world := by
  induction hreached with
  | start => exact .refl p start.world
  | step _ next ih => exact ih.trans (hclock.advance next)

end Steady

/-! ### The limits -/

/-- The time is up, or as many nodes were explored as are allowed. -/
theorem limitReached_iff : run.limitReached p config = true ↔
    config.maxTime ≤ run.elapsed p ∨ 0 < config.maxNodes ∧ config.maxNodes ≤ run.explored := by
  simp [Run.limitReached]

/-- Nodes are taken up before a limit is reached only. -/
theorem not_limitReached_of_taken
    (next : (advance p config .between).Gives run (.moving h) run') :
    ¬run.limitReached p config = true := by
  intro hlimit
  simp only [advance, Action.gives_bind, Action.gives_get] at next
  obtain ⟨_, _, ⟨rfl, rfl⟩, next⟩ := next
  rw [hlimit, Bool.or_true, if_pos rfl] at next
  cases (Action.gives_pure.mp next).1

theorem explored_advance (next : (advance p config place).Gives run place' run') :
    run'.explored = run.explored ∨
      run'.explored = run.explored + 1 ∧ ¬run.limitReached p config = true := by
  cases moves_of_gives next with
  | done | drained | returned | rested => exact Or.inl rfl
  | taken _ kept => exact Or.inr ⟨kept.explored, not_limitReached_of_taken next⟩
  | moved move => exact Or.inl ((leaves_goTo fun _ _ _ => rfl).of_gives move)
  | again round | answered round => exact Or.inl (explored_cutRound.of_gives round)
  | closed close =>
      exact Or.inl ((leaves_close (fun _ _ _ _ => rfl) (fun _ _ _ => rfl) _).of_gives close)

theorem Reaches.explored_le (hreached : Reaches p config start place run)
    (hstart : start.explored = 0) (hlimited : 0 < config.maxNodes) :
    (run.explored : Int) ≤ config.maxNodes := by
  induction hreached with
  | start =>
      rw [hstart]
      exact hlimited.le
  | step _ next ih =>
      rcases explored_advance next with hsame | ⟨hcounted, hlimit⟩
      · rwa [hsame]
      · rw [limitReached_iff] at hlimit
        rw [hcounted]
        push_cast
        exact Int.add_one_le_iff.mpr (Int.not_le.mp fun hfull => hlimit (Or.inr ⟨hlimited, hfull⟩))

/-- A limit once reached stays reached. -/
theorem limitReached_of_later (hlater : Later p run.world run'.world)
    (hstarted : run.started ≤ p.now run.world) (hsame : run'.started = run.started)
    (hexplored : run'.explored = run.explored) (hlimit : run.limitReached p config = true) :
    run'.limitReached p config = true := by
  rw [limitReached_iff] at hlimit ⊢
  rw [hexplored]
  refine hlimit.imp_left fun htime => ?_
  have hnow := hlater (Extended.ne_undefined_of_le hstarted).2
  have hpassed := Extended.sub_le_sub_of_le hstarted hnow (Extended.ne_undefined_of_le htime).2
  rw [Run.elapsed, hsame]
  exact Extended.le_trans htime hpassed

/-! ### The end of the loop -/

section Ends

variable {s : Solver Extended μ σ}

theorem Ledger.isEmpty_iff {visited : List Handle} {hand : Option Handle}
    (hl : Ledger visited hand run) : run.queue.isEmpty = true ↔ run.tree.pending = [] := by
  have hhandles : run.queue.handles = [] ↔ run.tree.pending = [] := by
    rw [← List.length_eq_zero_iff, ← List.length_eq_zero_iff, hl.waiting.length_eq]
  rw [OpenQueue.isEmpty_iff, ← hhandles]
  exact List.map_eq_nil_iff.symm

/-- A search ends when nothing is open or a limit is reached. -/
theorem Reaches.ended (hreached : Reaches s.problem config (outset s) place run)
    (hafter : KeepsTree s.problem) (hended : place = .ended) :
    run.queue.isEmpty = true ∨ run.limitReached s.problem config = true := by
  induction hreached with
  | start => cases hended
  | step before next ih =>
      subst hended
      cases moves_of_gives next with
      | done finished => exact (Bool.or_eq_true _ _).mp finished
      | drained popped =>
          obtain ⟨visited, hl⟩ := before.ledger hafter
          exact Or.inl (OpenQueue.isEmpty_iff.mpr (hl.fits.pop_none popped).2.1)
      | rested => exact ih rfl

end Ends

/-! ### The status -/

/-- What a status says of a search that has ended. -/
inductive Warranted (p : Problem Extended μ σ) (config : SearchConfig Extended)
    (run : Run Extended μ σ) : SearchStatus → Prop where
  | optimal (found : run.tree.incumbent.isSome = true)
      (settled : run.queue.isEmpty = true ∨ run.tree.gap ≤ config.gapTolerance) :
      Warranted p config run .optimal
  | infeasible (exhausted : run.queue.isEmpty = true) (none : run.tree.incumbent = none) :
      Warranted p config run .infeasible
  | timeLimit (waiting : ¬run.queue.isEmpty = true) (wide : ¬run.tree.gap ≤ config.gapTolerance)
      (passed : config.maxTime ≤ run.elapsed p) : Warranted p config run .timeLimit
  | nodeLimit (waiting : ¬run.queue.isEmpty = true) (wide : ¬run.tree.gap ≤ config.gapTolerance)
      (limited : 0 < config.maxNodes) (full : config.maxNodes ≤ run.explored) :
      Warranted p config run .nodeLimit

namespace Warranted

variable {status : SearchStatus}

theorem infeasible_iff (hw : Warranted p config run status) :
    status = .infeasible ↔ run.queue.isEmpty = true ∧ run.tree.incumbent = none := by
  cases hw with
  | optimal found =>
      refine iff_of_false nofun fun hnone => ?_
      rw [hnone.2] at found
      cases found
  | infeasible exhausted none => exact iff_of_true rfl ⟨exhausted, none⟩
  | timeLimit waiting | nodeLimit waiting => exact iff_of_false nofun fun hempty => waiting hempty.1

theorem optimal_iff (hw : Warranted p config run status) :
    status = .optimal ↔ run.tree.incumbent.isSome = true ∧
      (run.queue.isEmpty = true ∨ run.tree.gap ≤ config.gapTolerance) := by
  cases hw with
  | optimal found settled => exact iff_of_true rfl ⟨found, settled⟩
  | infeasible _ none =>
      refine iff_of_false nofun fun hfound => ?_
      rw [none] at hfound
      cases hfound.1
  | timeLimit waiting wide | nodeLimit waiting wide =>
      exact iff_of_false nofun fun hsettled => hsettled.2.elim waiting wide

theorem limit (hw : Warranted p config run status) (hinfeasible : status ≠ .infeasible)
    (hoptimal : status ≠ .optimal) :
    ¬run.queue.isEmpty = true ∧
      (status = .timeLimit ∧ config.maxTime ≤ run.elapsed p ∨
        status = .nodeLimit ∧ 0 < config.maxNodes ∧ config.maxNodes ≤ run.explored) := by
  cases hw with
  | optimal => exact absurd rfl hoptimal
  | infeasible => exact absurd rfl hinfeasible
  | timeLimit waiting _ passed => exact ⟨waiting, Or.inl ⟨rfl, passed⟩⟩
  | nodeLimit waiting _ limited full => exact ⟨waiting, Or.inr ⟨rfl, limited, full⟩⟩

theorem named (hw : Warranted p config run status) :
    status ≠ .feasible ∧ status ≠ .notSolved := by
  cases hw <;> exact ⟨nofun, nofun⟩

end Warranted

/-- The status is warranted where the loop was left for a reason, and where no gap is small without
an incumbent. -/
theorem warranted_finalStatus
    (hleft : run.queue.isEmpty = true ∨ run.limitReached p config = true)
    (hwide : run.tree.incumbent = none → ¬run.tree.gap ≤ config.gapTolerance) :
    Warranted p config run (run.finalStatus p config) := by
  unfold Run.finalStatus
  split
  · rename_i hdone
    rw [Bool.or_eq_true, decide_eq_true_iff] at hdone
    split
    · rename_i hfound
      exact .optimal hfound hdone
    · rename_i hnone
      rw [Bool.not_eq_true, Option.isSome_eq_false_iff, Option.isNone_iff_eq_none] at hnone
      exact .infeasible (hdone.resolve_right (hwide hnone)) hnone
  · rename_i hopen
    rw [Bool.or_eq_true, decide_eq_true_iff, not_or] at hopen
    obtain ⟨hwaiting, hgap⟩ := hopen
    have hlimit := limitReached_iff.mp (hleft.resolve_left hwaiting)
    split
    · rename_i htime
      exact .timeLimit hwaiting hgap htime
    · rename_i htime
      obtain ⟨hlimited, hfull⟩ := hlimit.resolve_left htime
      rw [if_pos ⟨hlimited, hfull⟩]
      exact .nodeLimit hwaiting hgap hlimited hfull

/-- What the status of a search that returns means, for a clock that never goes back. It is
infeasible just when no node is pending and there is no incumbent, and optimal just when there is an
incumbent and no node is pending or the gap is at most that of the settings. Otherwise some node is
pending and a limit is named: the time if it is up, or else the number of nodes, which then has been
reached and not exceeded. The queue is empty just when no node is pending, and the other two
statuses do not occur. -/
theorem status_meaning (s : Solver Extended μ σ) (hafter : KeepsTree s.problem)
    (hnumber : ∀ {w w' z values}, s.problem.solve.Gives w (.solved z values) w' → z ≠ .undefined)
    (hclock : Steady s.problem) (hnow : s.problem.now s.world ≠ .undefined)
    (hgap : s.config.gapTolerance = .finite gap) (hnonneg : 0 ≤ gap) {steps : Nat}
    {timeLimit : Option Extended} {nodeLimit : Option Int} {solution : Solution Extended}
    {s' : Solver Extended μ σ}
    (hsolve : s.solve steps timeLimit nodeLimit = (.ok solution, run, s')) :
    (run.queue.isEmpty = true ↔ run.tree.pending = []) ∧
    (solution.status = .infeasible ↔ run.tree.pending = [] ∧ run.tree.incumbent = none) ∧
    (solution.status = .optimal ↔ run.tree.incumbent.isSome = true ∧
      (run.tree.pending = [] ∨ solution.gap ≤ s.config.gapTolerance)) ∧
    (solution.status ≠ .infeasible → solution.status ≠ .optimal → run.tree.pending ≠ [] ∧
      (solution.status = .timeLimit ∧ timeLimit.getD s.config.maxTime ≤
          s.problem.now run.world - s.problem.now s.world ∨
        solution.status = .nodeLimit ∧ 0 < nodeLimit.getD s.config.maxNodes ∧
          (solution.nodesExplored : Int) = nodeLimit.getD s.config.maxNodes)) ∧
    solution.status ≠ .feasible ∧ solution.status ≠ .notSolved := by
  obtain ⟨run₁, hended, hhome, rfl⟩ := Reaches.of_solve hsolve
  have hsame := gives_goHome hhome
  have hqueue : run.queue = run₁.queue := (congrArg Run.queue hsame :)
  have hexplored : run.explored = run₁.explored := (congrArg Run.explored hsame :)
  have hstarted : run.started = run₁.started := (congrArg Run.started hsame :)
  have htree := congrArg Run.tree hsame
  have hbegun : run₁.started = s.problem.now s.world := hended.started_eq
  have hempty : run.queue.isEmpty = true ↔ run.tree.pending = [] := by
    obtain ⟨visited, hl⟩ := hended.ledger hafter
    rw [hqueue, htree]
    exact hl.isEmpty_iff
  have hleft : run.queue.isEmpty = true ∨
      run.limitReached s.problem (Solver.limited s.config timeLimit nodeLimit) = true := by
    rw [hqueue]
    refine (hended.ended hafter rfl).imp_right fun hlimit => ?_
    -- The loop saw the clock before the trail went home, and the status is worked out after it.
    exact limitReached_of_later (hclock.goHome hhome) (hbegun ▸ hclock.reaches hended hnow)
      hstarted hexplored hlimit
  have hwide : run.tree.incumbent = none → ¬run.tree.gap ≤ s.config.gapTolerance := by
    -- Without an incumbent the upper bound is infinite, and so is the gap.
    intro hnone
    rw [htree] at hnone
    have hupper := ((hended.leading hafter hnumber hgap hnonneg).none hnone).1
    rw [Tree.gap, gap_of_unknown (Or.inl (by rw [htree]; exact hupper)), hgap, Extended.infinity_le]
    nofun
  have hstatus : Warranted s.problem (Solver.limited s.config timeLimit nodeLimit) run _ :=
    warranted_finalStatus hleft hwide
  refine ⟨hempty, ?_, ?_, fun hinfeasible hoptimal => ?_, hstatus.named⟩
  · rw [← hempty]
    exact hstatus.infeasible_iff
  · rw [← hempty]
    exact hstatus.optimal_iff
  · obtain ⟨hwaiting, hlimit⟩ := hstatus.limit hinfeasible hoptimal
    refine ⟨fun hnone => hwaiting (hempty.mpr hnone), ?_⟩
    rcases hlimit with ⟨htime, hpassed⟩ | ⟨hnodes, hlimited, hfull⟩
    · rw [Run.elapsed, hstarted, hbegun] at hpassed
      exact Or.inl ⟨htime, hpassed⟩
    · have hwithin := hended.explored_le rfl hlimited
      rw [← hexplored] at hwithin
      exact Or.inr ⟨hnodes, hlimited, le_antisymm hwithin hfull⟩

theorem exists_of_status
    {x : Except Fault (Solution Extended) × Run Extended μ σ × Solver Extended μ σ}
    {t : SearchStatus} (hx : x.1.toOption.map Solution.status = some t) :
    ∃ solution run s', x = (.ok solution, run, s') ∧ solution.status = t := by
  obtain ⟨_ | solution, run, s'⟩ := x
  · cases hx
  · exact ⟨solution, run, s', rfl, Option.some.inj hx⟩

theorem clock_perform (call : Call Move) :
    (Stage.perform call : Action (Stage Extended) Unit).Leaves Stage.clock := by
  intro w
  cases call with
  | act a d =>
      simp only [Stage.perform, Stage.act, Action.runOn]
      cases Move.act a d.move w.restrictions with
      | ok r => rfl
      | error fault => rfl
  | notify name a d =>
      simp only [Stage.perform, Stage.hear, Action.runOn]
      cases w.watch.hear name a d.move.shown with
      | ok watch => rfl
      | error fault => rfl

/-- A table whose rules let no negative time pass has a steady clock. -/
theorem steady_script {rules : List (ScriptRule Extended)}
    (hrules : ∀ rule ∈ rules, ∃ e, 0 ≤ e ∧ rule.elapse = .finite e) (acceptance : Acceptance)
    (strategy : Script.Strategy Extended) :
    Steady (Script.problem ⟨rules, acceptance, []⟩ strategy) := by
  have hstill : ∀ {w w' : Stage Extended}, w'.clock = w.clock →
      Later (Script.problem ⟨rules, acceptance, []⟩ strategy) w w' := fun hclock hnumber => by
    show _ ≤ Stage.clock _
    rw [hclock]
    exact Extended.le_refl hnumber
  refine ⟨fun {answer w w'} hgives => ?_, fun hgives => ?_, fun {call w w'} hgives => ?_,
    fun {n values cs w w'} hgives => ?_, fun hgives => ?_⟩
  · simp only [Script.problem, Action.Gives, Action.runOn, Script.solve] at hgives
    split at hgives
    · exact hstill (congrArg Stage.clock (Prod.mk.inj hgives).2).symm
    · rename_i rule hrule
      obtain ⟨e, he, helapse⟩ := hrules rule (List.mem_of_find?_eq_some hrule)
      intro hnumber
      have hclock : w.clock + rule.elapse = w'.clock := congrArg Stage.clock (Prod.mk.inj hgives).2
      show w.clock ≤ w'.clock
      rw [← hclock, helapse]
      exact Extended.le_add_finite hnumber he
  · exact hstill (congrArg Stage.clock (Prod.mk.inj hgives).2).symm
  · exact hstill ((clock_perform call).of_gives hgives)
  · cases strategy with
    | none => exact hstill (congrArg Stage.clock (Prod.mk.inj hgives).2).symm
    | edges b => exact hstill (congrArg Stage.clock (Prod.mk.inj hgives).2).symm
  · exact hstill (congrArg (fun x => x.2.clock) (Prod.mk.inj hgives).2).symm

/-- The same search stopped after two nodes, stopped after two units of time, and not stopped: in
the first two runs there is an incumbent, but a better tour is still to be found. -/
theorem status_meaning_falling :
    (∃ solution run s', fallingSolver.solve 10 none (some 2) = (.ok solution, run, s') ∧
      solution.status = .nodeLimit ∧ run.tree.pending ≠ [] ∧ solution.nodesExplored = 2) ∧
    (∃ solution run s', fallingSolver.solve 10 (some (.finite 2)) none = (.ok solution, run, s') ∧
      solution.status = .timeLimit ∧ run.tree.pending ≠ [] ∧
      .finite 2 ≤ run.world.clock - fallingSolver.world.clock) ∧
    ∃ solution run s', fallingSolver.solve 10 none none = (.ok solution, run, s') ∧
      solution.status = .optimal ∧ run.tree.incumbent.isSome = true ∧
      (run.tree.pending = [] ∨ solution.gap ≤ .finite 0) := by
  have hrules : ∀ rule ∈ fallingRules, (∃ e, 0 ≤ e ∧ rule.elapse = .finite e) ∧
      ∀ z values, rule.answer = .solved z values → z ≠ .undefined := by
    intro rule hrule
    simp only [fallingRules, List.mem_cons, List.not_mem_nil, or_false] at hrule
    rcases hrule with rfl | rfl | rfl <;>
      exact ⟨⟨1, zero_le_one, rfl⟩, fun _ _ hanswer => by cases hanswer; simp⟩
  have hmeaning {timeLimit nodeLimit solution run s'} (hsolve : fallingSolver.solve 10 timeLimit
      nodeLimit = (.ok solution, run, s')) :=
    status_meaning fallingSolver (keepsTree_script _ _ _)
      (number_script (fun rule hrule => (hrules rule hrule).2) .dedupe _)
      (steady_script (fun rule hrule => (hrules rule hrule).1) .dedupe _) (by decide +kernel) rfl
      (le_refl 0) hsolve
  refine ⟨?_, ?_, ?_⟩
  · obtain ⟨solution, run, s', hsolve, hstatus⟩ :=
      exists_of_status (x := fallingSolver.solve 10 none (some 2)) (t := .nodeLimit)
        (by decide +kernel)
    obtain ⟨-, -, -, hlimit, -⟩ := hmeaning hsolve
    rw [hstatus] at hlimit
    obtain ⟨hpending, hwhich⟩ := hlimit (by decide) (by decide)
    obtain ⟨-, -, hexplored⟩ := hwhich.resolve_left fun htime => absurd htime.1 (by decide)
    exact ⟨solution, run, s', hsolve, hstatus, hpending, Int.ofNat_inj.mp hexplored⟩
  · obtain ⟨solution, run, s', hsolve, hstatus⟩ :=
      exists_of_status (x := fallingSolver.solve 10 (some (.finite 2)) none) (t := .timeLimit)
        (by decide +kernel)
    obtain ⟨-, -, -, hlimit, -⟩ := hmeaning hsolve
    rw [hstatus] at hlimit
    obtain ⟨hpending, hwhich⟩ := hlimit (by decide) (by decide)
    obtain ⟨-, hpassed⟩ := hwhich.resolve_right fun hnodes => absurd hnodes.1 (by decide)
    exact ⟨solution, run, s', hsolve, hstatus, hpending, hpassed⟩
  · obtain ⟨solution, run, s', hsolve, hstatus⟩ :=
      exists_of_status (x := fallingSolver.solve 10 none none) (t := .optimal) (by decide +kernel)
    obtain ⟨-, -, hoptimal, -⟩ := hmeaning hsolve
    exact ⟨solution, run, s', hsolve, hstatus, hoptimal.mp hstatus⟩

end Search

end TourSearch
