import TourSearch.Linear.Simplex
import TourSearch.Proofs.Search.OpenNodes
import TourSearch.Proofs.Tour.Coherence
import TourSearch.Proofs.Tour.Validity
import Mathlib

/-!
The bounds of the linear programs. The relaxation of tours keeps its bounds from one program to the
next and forgets them when the trail tells it of a decision, which it does if the relaxation is one
of its listeners. Every program then has the bounds that the restrictions set at that time. A search
without listeners changes the restrictions all the same, and all its programs have the bounds of the
first one (`bounds_of_programs`): a child is solved as its parent was
(`child_solved_under_stale_bounds`).
-/

namespace TourSearch

open Numeric

namespace Search

open TourRelaxation

variable {σ : Type} {p : Problem Extended Move σ} {config : SearchConfig Extended}
  {method : Linear.Program → Option (List Rat)} {store : σ → TourRelaxation Extended}
  {run run' : Run Extended Move σ} {w w' : σ} {names : List String} {t : Instance Extended}

/-- A relaxation of tours among the partners of a search. It is solved, given cuts and acted on by
decisions; a notice under its name makes it forget its bounds, and one under another name may.
Nothing else changes it. -/
structure Hosts (p : Problem Extended Move σ) (method : Linear.Program → Option (List Rat))
    (store : σ → TourRelaxation Extended) : Prop where
  solve : ∀ {w answer w'}, p.solve.Gives w answer w' →
    (store w).solveBy method = (answer, store w')
  addCuts : ∀ {cuts w count w'}, (p.addCuts cuts).Gives w count w' →
    (store w).addCuts cuts = (count, store w')
  act : ∀ {a d w w'}, (p.perform (.act a d)).Gives w () w' →
    (store w).act a d.move = .ok (store w')
  notify : ∀ {name a d w w'}, (p.perform (.notify name a d)).Gives w () w' →
    store w' = (store w).notice ∨ (name ≠ listenerName ∧ store w' = store w)
  candidates : ∀ {n values w cs w'}, (p.candidates n values).Gives w cs w' → store w' = store w
  afterNode : ∀ {h t w t' w'}, (p.afterNode h).Gives (t, w) () (t', w') → store w' = store w

theorem Hosts.answer_eq (hp : Hosts p method store) {answer : Answer Extended}
    (solved : p.solve.Gives w answer w') : answer =
      (store w).answerTo method ((store w).program? (store w).takeBounds.1) :=
  (Prod.mk.inj ((hp.solve solved).symm.trans (solveBy_eq method (store w)))).1

/-! ### Decisions and their notices -/

theorem Hosts.told (hp : Hosts p method store) : Told p.perform listenerName store where
  act := hp.act
  notify := by
    intro other a d w w' hgives
    rcases hp.notify hgives with hnotice | ⟨hother, hsame⟩
    · rw [hnotice]
      exact ⟨spared_notice _, fun _ => rfl⟩
    · rw [hsame]
      exact ⟨.refl _, fun heq => absurd heq hother⟩

theorem Hosts.current_callsFor (hp : Hosts p method store) (hlistens : listenerName ∈ names)
    {a : Act} {d : Decision Move} (hcurrent : Current t (store w))
    (hperforms : Trail.Performs p.perform (Trail.callsFor names a d) w w') :
    Current t (store w') := by
  obtain ⟨htours, hnone⟩ := hp.told.callsFor hlistens hperforms
  exact ⟨htours.trans hcurrent.tours, upToDate_of_none hnone⟩

/-- Without listeners a decision leaves the bounds in use alone. -/
theorem Hosts.bounds_callsFor (hp : Hosts p method store) {a : Act} {d : Decision Move}
    (hperforms : Trail.Performs p.perform (Trail.callsFor [] a d) w w') :
    (store w').bounds = (store w).bounds := by
  cases hperforms with
  | cons first others =>
      cases others
      obtain ⟨restrictions, -, hact⟩ := act_eq_ok (hp.act first)
      rw [hact]

/-! ### Steps of a search -/

theorem performs_goTo {h : Handle} (move : (Run.goTo p h).Gives run () run') :
    Trail.Performs p.perform (callsTo run h) run.world run'.world ∧ run'.tree = run.tree ∧
      run'.trail.listeners = run.trail.listeners ∧
      (run.trail.history = [] → (run.tree.node h).decisions = [] → run'.trail.history = []) := by
  obtain ⟨trail, world, hmove, rfl⟩ := gives_goTo.mp move
  obtain ⟨hperforms, htrail⟩ := Trail.moveTo_ok hmove
  rw [Trail.foldl_note_plan] at htrail
  refine ⟨hperforms, rfl, by rw [htrail], fun hhistory hdecisions => ?_⟩
  rw [htrail]
  simp [hhistory, hdecisions]

theorem Closes.trail_eq {h : Handle} {answer : Answer Extended}
    (hcloses : Closes p config h run answer run') : run'.trail = run.trail := by
  cases hcloses <;> rfl

theorem Reaches.listeners_eq {s : Solver Extended Move σ} {place : Place Extended}
    (hreached : Reaches s.problem config (outset s) place run) :
    run.trail.listeners = s.listeners := by
  induction hreached with
  | start => rw [trail_outset]; rfl
  | step _ next ih =>
      cases moves_of_gives next with
      | done | drained | returned | rested => exact ih
      | taken _ kept => rw [kept.trail]; exact ih
      | moved move => exact (performs_goTo move).2.2.1.trans ih
      | again round | answered round => rw [(rounds_of_gives round).1.trail]; exact ih
      | closed close => rw [(closes_of_gives close).trail_eq]; exact ih

theorem Hosts.round (hp : Hosts p method store) {rounds : Int} {answer : Option (Answer Extended)}
    (hrounds : Rounds p config rounds run run' answer) :
    (store run'.world).bounds = some (store run.world).takeBounds.1 ∧
      (store run'.world).tours = (store run.world).tours ∧
      (store run'.world).restrictions = (store run.world).restrictions := by
  have hsolved : ∀ {a w'}, p.solve.Gives run.world a w' →
      store w' = { store run.world with
        bounds := some (store run.world).takeBounds.1, solves := (store run.world).solves + 1 } :=
    fun solved => (congrArg Prod.snd (hp.solve solved)).symm.trans
      (congrArg Prod.snd (solveBy_eq method _))
  cases hrounds with
  | infeasible solved | hopeless solved | uncut solved | last solved =>
      rw [hsolved solved]
      exact ⟨rfl, rfl, rfl⟩
  | again solved _ _ _ added =>
      have hadded := congrArg Prod.snd (hp.addCuts added)
      rw [← show _ = store run'.world from hadded, hsolved solved]
      exact ⟨rfl, rfl, rfl⟩

theorem Hosts.store_close (hp : Hosts p method store) {h : Handle} {answer : Answer Extended}
    (hcloses : Closes p config h run answer run') : store run'.world = store run.world := by
  cases hcloses with
  | infeasible | hopeless | incumbent => rfl
  | givenUp _ _ proposed | branched _ _ proposed => exact hp.candidates proposed

/-- What decisions with their notices keep, and solving under the bounds in use, a step keeps. -/
theorem Hosts.keeps_advance (hp : Hosts p method store) {P : TourRelaxation Extended → Prop}
    {place place' : Place Extended}
    (hdecision : ∀ {a d w w'}, P (store w) →
      Trail.Performs p.perform (Trail.callsFor run.trail.listeners a d) w w' → P (store w'))
    (hsolve : ∀ {r r' : TourRelaxation Extended}, P r → r'.bounds = some r.takeBounds.1 →
      r'.tours = r.tours → r'.restrictions = r.restrictions → P r')
    (hbefore : P (store run.world)) (next : (advance p config place).Gives run place' run') :
    P (store run'.world) := by
  cases moves_of_gives next with
  | done | drained | rested => exact hbefore
  | taken _ _ world => rw [world]; exact hbefore
  | moved move =>
      exact (performs_goTo move).1.keeps_plan (P := fun w => P (store w)) hdecision hbefore
  | again round | answered round =>
      obtain ⟨hbounds, htours, hrestrictions⟩ := hp.round (rounds_of_gives round).2.2
      exact hsolve hbefore hbounds htours hrestrictions
  | closed close => rw [hp.store_close (closes_of_gives close)]; exact hbefore
  | returned after => rw [hp.afterNode after]; exact hbefore

/-! ### Whole searches -/

/-- A relaxation that listens has current bounds throughout a search. -/
theorem Hosts.current_of_reaches {s : Solver Extended Move σ} (hp : Hosts s.problem method store)
    (hlistens : listenerName ∈ s.listeners) (hstart : Current t (store s.world))
    {place : Place Extended} (hreached : Reaches s.problem config (outset s) place run) :
    Current t (store run.world) := by
  induction hreached with
  | start => exact hstart
  | step before next ih =>
      refine hp.keeps_advance (fun hw hperforms => ?_)
        (fun hr hbounds htours hrestrictions => ?_) ih next
      · exact hp.current_callsFor (before.listeners_eq ▸ hlistens) hw hperforms
      · refine ⟨htours.trans hr.tours, fun b hb => ?_⟩
        rw [hbounds, hr.bounds.takeBounds_eq, Option.mem_some_iff] at hb
        rw [← hb, currentBounds, currentBounds, htours, hrestrictions]

/-- No node has been answered, nothing is decided and the world is still the first one. -/
def Untouched (start : Run Extended Move σ) : Place Extended → Run Extended Move σ → Prop
  | .closing .., _ | .closed _, _ => False
  | .between, run | .moving _, run | .solving .., run | .ended, run =>
      run.world = start.world ∧ run.trail.history = [] ∧ ∀ k, (run.tree.node k).decisions = []

theorem Untouched.advance {start : Run Extended Move σ} {place place' : Place Extended}
    (hu : Untouched start place run) (next : (advance p config place).Gives run place' run') :
    Untouched start place' run' ∨
      run.world = start.world ∧ ∃ rounds answer, Rounds p config rounds run run' answer := by
  cases moves_of_gives next with
  | done | drained | rested => exact Or.inl hu
  | @taken _ _ h _ _ kept world =>
      obtain ⟨hworld, hhistory, hdecisions⟩ := hu
      refine Or.inl ⟨world.trans hworld, by rw [kept.trail]; exact hhistory, fun k => ?_⟩
      rw [kept.tree, Tree.node_modify]
      split
      · exact hdecisions h
      · exact hdecisions k
  | @moved _ _ h move =>
      obtain ⟨hworld, hhistory, hdecisions⟩ := hu
      obtain ⟨hperforms, htree, -, hstays⟩ := performs_goTo move
      have hnone : callsTo run h = [] := by simp [callsTo, Trail.plan, hhistory, hdecisions]
      have hsame : run'.world = run.world := (hnone ▸ hperforms).eq_of_nil
      exact Or.inl ⟨hsame.trans hworld, hstays hhistory (hdecisions h), htree ▸ hdecisions⟩
  | again round | answered round =>
      exact Or.inr ⟨hu.1, _, _, (rounds_of_gives round).2.2⟩
  | closed | returned => exact hu.elim

/-- Without listeners the first bounds stay in use, from the first program on. -/
theorem Hosts.bounds_of_reaches {s : Solver Extended Move σ} (hp : Hosts s.problem method store)
    (hdeaf : s.listeners = []) {place : Place Extended}
    (hreached : Reaches s.problem config (outset s) place run) :
    (store run.world).bounds = some (store s.world).takeBounds.1 ∨
      Untouched (outset s) place run := by
  induction hreached with
  | start => exact Or.inr ⟨rfl, by rw [trail_outset]; rfl, fun k => by
      rw [show (outset s).tree = Tree.initial from rfl, Tree.node_initial]; rfl⟩
  | step before next ih =>
      rcases ih with hbounds | huntouched
      · left
        refine hp.keeps_advance (P := fun r => r.bounds = some (store s.world).takeBounds.1)
          (fun hw hperforms => ?_) (fun hr hbounds _ _ => ?_) hbounds next
        · rw [before.listeners_eq, hdeaf] at hperforms
          rw [hp.bounds_callsFor hperforms, hw]
        · rw [hbounds, takeBounds, hr]
      · rcases huntouched.advance next with huntouched | ⟨hworld, rounds, answer, hrounds⟩
        · exact Or.inr huntouched
        · left
          rw [(hp.round hrounds).1, hworld]
          rfl

/-- Every answer in the course of a search is that to the program under the bounds that the
restrictions set at that time, if the relaxation is among the listeners, whatever other listeners
there are. In a search without listeners the bounds are those of the first program, whatever has
been decided since. -/
theorem bounds_of_programs (s : Solver Extended Move σ) (hhosts : Hosts s.problem method store)
    (timeLimit : Option Extended) (nodeLimit : Option Int)
    (hfresh : (store s.world).UpToDate) {h : Handle} {rounds : Nat}
    (hreached : Reaches s.problem (Solver.limited s.config timeLimit nodeLimit) (outset s)
      (.solving h rounds) run) :
    (listenerName ∈ s.listeners →
      (store run.world).takeBounds.1 = (store run.world).currentBounds ∧
      ∀ {answer w}, s.problem.solve.Gives run.world answer w → answer =
        (store run.world).answerTo method
          ((store run.world).program? (store run.world).currentBounds)) ∧
    (s.listeners = [] → (store run.world).takeBounds.1 = (store s.world).currentBounds ∧
      ∀ {answer w}, s.problem.solve.Gives run.world answer w → answer =
        (store run.world).answerTo method
          ((store run.world).program? (store s.world).currentBounds)) := by
  have hstart : Current (store s.world).tours (store s.world) := ⟨rfl, hfresh⟩
  refine ⟨fun hlistens => ?_, fun hdeaf => ?_⟩
  · have hbounds := (hhosts.current_of_reaches hlistens hstart hreached).bounds.takeBounds_eq
    exact ⟨hbounds, fun solved => hbounds ▸ hhosts.answer_eq solved⟩
  · have hbounds : (store run.world).takeBounds.1 = (store s.world).currentBounds := by
      rw [← hfresh.takeBounds_eq]
      rcases hhosts.bounds_of_reaches hdeaf hreached with hbounds | ⟨hworld, -⟩
      · rw [takeBounds, hbounds]
      · rw [show run.world = s.world from hworld]
    exact ⟨hbounds, fun solved => hbounds ▸ hhosts.answer_eq solved⟩

/-- A relaxation that is itself the problem of the search. -/
theorem hosts_problem (method : Linear.Program → Option (List Rat)) :
    Hosts (problem method) method id where
  solve := by
    intro w answer w' hgives
    simp only [Action.Gives, Action.runOn, problem, Prod.mk.injEq, Except.ok.injEq] at hgives
    exact Prod.ext hgives.1 hgives.2
  addCuts := by
    intro cuts w count w' hgives
    simp only [Action.Gives, Action.runOn, problem, Prod.mk.injEq, Except.ok.injEq] at hgives
    exact Prod.ext hgives.1 hgives.2
  act := by
    intro a d w w' hgives
    obtain ⟨s, hact, rfl⟩ := gives_act hgives
    rw [id, act, hact]
    rfl
  notify := fun hgives => Or.inl (congrArg Prod.snd hgives).symm
  candidates := fun hgives => (congrArg Prod.snd hgives).symm
  afterNode := fun hgives => (congrArg (fun result => result.2.2) hgives).symm

/-! ### Two triangles -/

/-- Two triangles, each city joined to one of the other. The cheapest values without further bounds
are one half on the triangles. -/
def prism : Instance Extended :=
  ⟨[[.finite 0, .finite 2, .finite 2, .finite 1, .finite 9, .finite 9],
    [.finite 2, .finite 0, .finite 2, .finite 9, .finite 1, .finite 9],
    [.finite 2, .finite 2, .finite 0, .finite 9, .finite 9, .finite 1],
    [.finite 1, .finite 9, .finite 9, .finite 0, .finite 2, .finite 2],
    [.finite 9, .finite 1, .finite 9, .finite 2, .finite 0, .finite 2],
    [.finite 9, .finite 9, .finite 1, .finite 2, .finite 2, .finite 0]], "prism"⟩

def halves (_ : Linear.Program) : Option (List Rat) :=
  some [1 / 2, 1 / 2, 1, 0, 0, 1 / 2, 0, 1, 0, 0, 0, 1, 1 / 2, 1 / 2, 1 / 2]

def prismSolver (method : Linear.Program → Option (List Rat)) (listeners : List String) :
    Solver Extended Move (TourRelaxation Extended) where
  problem := problem method
  config := SearchConfig.standard
  queue := OpenQueue.empty .bestFirst
  separator := Separator.ofGraph prism.graph .pushRelabel
  listeners := listeners
  world := ofInstance prism Restrictions.empty
  solution := none

/-- The relaxation that listens is solved for the first child with the bounds that fix its edge. -/
theorem bounds_of_programs_prism :
    ∃ run, Reaches (prismSolver halves [listenerName]).problem
        (prismSolver halves [listenerName]).config (outset (prismSolver halves [listenerName]))
        (.solving 1 0) run ∧
      run.world.currentBounds ≠ (ofInstance prism Restrictions.empty).currentBounds ∧
      run.world.takeBounds.1 = run.world.currentBounds ∧
      (run.world.solveBy halves).1 =
        run.world.answerTo halves (run.world.program? run.world.currentBounds) := by
  -- Seven steps lead from the root to its first child.
  obtain ⟨place, run, hreached, hspot, hchanged⟩ : ∃ place run, Reaches (problem halves)
      (Solver.limited (prismSolver halves [listenerName]).config none none)
      (outset (prismSolver halves [listenerName])) place run ∧ place.spot = .solving 1 0 ∧
      run.world.currentBounds ≠ (ofInstance prism Restrictions.empty).currentBounds :=
    exists_reaches (n := 7) (by rw [problem_eq]; decide +kernel)
  obtain rfl := Place.eq_solving hspot
  obtain ⟨hbounds, hanswer⟩ := (bounds_of_programs (prismSolver halves [listenerName])
    (hosts_problem halves) none none (upToDate_of_none rfl) hreached).1 (by decide)
  have hgives : (problem halves : Problem Extended Move _).solve.Gives run.world
      (run.world.solveBy halves).1 (run.world.solveBy halves).2 := rfl
  exact ⟨run, hreached, hchanged, hbounds, hanswer hgives⟩

/-- Without listeners the first child is solved under the bounds of the root. -/
theorem child_solved_under_stale_bounds :
    ∃ run, Reaches (prismSolver Linear.Program.simplex []).problem
        (prismSolver Linear.Program.simplex []).config
        (outset (prismSolver Linear.Program.simplex [])) (.solving 1 0) run ∧
      run.world.takeBounds.1 ≠ run.world.currentBounds := by
  obtain ⟨place, run, hreached, hspot, hstale⟩ : ∃ place run,
      Reaches (problem Linear.Program.simplex) (prismSolver Linear.Program.simplex []).config
        (outset (prismSolver Linear.Program.simplex [])) place run ∧ place.spot = .solving 1 0 ∧
      run.world.takeBounds.1 ≠ run.world.currentBounds :=
    exists_reaches (n := 7) (by rw [problem_eq]; decide +kernel)
  obtain rfl := Place.eq_solving hspot
  exact ⟨run, hreached, hstale⟩

end Search

end TourSearch
