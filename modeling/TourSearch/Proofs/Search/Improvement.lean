import TourSearch.Proofs.Search.Pruning
import TourSearch.Proofs.Search.Soundness
import Mathlib

/-!
The incumbents of a search. Making a node the incumbent overwrites the one before without a
comparison; that it is better comes from the test of the bound made before, which compares the
larger of the node's value and the bound it inherited. The incumbent, the upper bound and the values
kept are three records of the same node, and every step changes all of them or none (`Recorded`). At
any time the incumbent therefore has the least value of all integral nodes (`Leading`).
-/

namespace TourSearch

open Numeric

namespace Search

variable {μ σ : Type} {p : Problem Extended μ σ} {config : SearchConfig Extended}
  {start run run' : Run Extended μ σ} {h k : Nat} {gap : Rat}

/-! ### What closing a node does to the records -/

inductive Recorded (config : SearchConfig Extended) (h : Nat) (run run' : Run Extended μ σ) :
    Answer Extended → Prop where
  | kept {answer : Answer Extended} (incumbent : run'.tree.incumbent = run.tree.incumbent)
      (upper : run'.tree.stats.upper = run.tree.stats.upper)
      (values : run'.incumbentValues = run.incumbentValues)
      (status : (run'.tree.node h).status ≠ .integer) : Recorded config h run run' answer
  | improved {z : Extended} {values : EdgeValues Extended} (better : ¬Hopeless config run.tree h z)
      (incumbent : run'.tree.incumbent = some h) (upper : run'.tree.stats.upper = z)
      (kept : run'.incumbentValues = values) (status : (run'.tree.node h).status = .integer)
      (value : (run'.tree.node h).lpValue = z) (solution : (run'.tree.node h).solution = values) :
      Recorded config h run run' (.solved z values)

theorem Closes.recorded {answer : Answer Extended} (hcloses : Closes p config h run answer run')
    (hlt : h < run.tree.records.size) : Recorded config h run run' answer := by
  have hmarked : ∀ {t : Tree Extended μ} (status : NodeStatus),
      t.records.size = run.tree.records.size →
        ((t.markProcessed h status).node h).status = status := fun status hsize =>
    congrArg Node.status (Tree.node_modify_self _ (hsize ▸ hlt) _)
  have hsize : ∀ z, (solvedTree run.tree h z).records.size = run.tree.records.size := fun z =>
    Tree.size_modify _ _ _
  cases hcloses with
  | infeasible =>
      exact .kept rfl (Tree.upper_markProcessed _ _ _) rfl (by rw [hmarked _ rfl]; simp)
  | @hopeless z =>
      exact .kept rfl (Tree.upper_markProcessed _ _ _) rfl (by rw [hmarked _ (hsize z)]; simp)
  | @incumbent z values better _ =>
      have hpruned := Tree.pruned_pruneByBound (accepted (solvedTree run.tree h z) h values)
      have hself := node_accepted_self (hsize z ▸ hlt) values
      have hvalue : ((accepted (solvedTree run.tree h z) h values).node h).lpValue = z := by
        rw [hself, solvedTree, Tree.node_modify_self _ hlt]
        rfl
      -- The node itself is not pruned, since it is not pending any more.
      have hsame : (accepted (solvedTree run.tree h z) h values).pruneByBound.2.node h =
          (accepted (solvedTree run.tree h z) h values).node h := by
        refine (hpruned.nodes h).resolve_right fun hgone => ?_
        rw [Node.isPending_iff, hself] at hgone
        cases hgone.1
      exact .improved better hpruned.incumbent_eq (hpruned.upper_eq.trans hvalue) rfl
        (by rw [hsame, hself]) (by rw [hsame, hvalue]) (by rw [hsame, hself])
  | @givenUp z =>
      exact .kept rfl (Tree.upper_markProcessed _ _ _) rfl (by rw [hmarked _ (hsize z)]; simp)
  | @branched z values cs c world _ _ _ _ =>
      have hb := Tree.branched_createChildren (hsize z ▸ hlt) c.decisions
      obtain ⟨children, hself⟩ := hb.self
      have hstatus := congrArg Node.status hself
      exact .kept hb.incumbent_eq hb.upper_eq rfl fun hinteger => by
        cases hstatus.symm.trans hinteger

theorem Closes.integer_other {answer : Answer Extended}
    (hcloses : Closes p config h run answer run') (hlt : h < run.tree.records.size) (hne : k ≠ h)
    (hinteger : (run.tree.node k).status = .integer ∨ (run'.tree.node k).status = .integer) :
    run'.tree.node k = run.tree.node k := by
  rcases hcloses.other hlt hne with hsame | ⟨hpending, -, -, hclosed⟩ | ⟨hge, hnew⟩
  · exact hsame
  · rw [hclosed, hpending] at hinteger
    rcases hinteger with hinteger | hinteger <;> cases hinteger
  · rw [hnew, Tree.node_of_ge hge] at hinteger
    rcases hinteger with hinteger | hinteger <;> cases hinteger

/-- A node that becomes the incumbent improves the upper bound by more than the gap. -/
theorem lt_of_better (hlt : h < run.tree.records.size)
    (hbounded : (run.tree.node h).lowerBound ≠ .undefined)
    (hupper : run.tree.stats.upper ≠ .undefined) (hgap : config.gapTolerance = .finite gap)
    {z : Extended} (hz : z ≠ .undefined) (hbetter : ¬Hopeless config run.tree h z) :
    z < run.tree.stats.upper - .finite gap :=
  Extended.lt_of_le_of_lt (le_larger hbounded hz)
    (lt_of_not_hopeless hlt hbounded hupper hgap hbetter)

/-! ### The invariant -/

/-- The records agree with each other and with the nodes: without an incumbent there is no integral
node, and otherwise the incumbent has a lower value than all others. -/
structure Leading (run : Run Extended μ σ) : Prop where
  number : run.tree.stats.upper ≠ .undefined
  none : run.tree.incumbent = none → run.tree.stats.upper = .infinity ∧
    run.incumbentValues = Mapping.empty ∧ ∀ k, (run.tree.node k).status ≠ .integer
  some : ∀ h, run.tree.incumbent = some h → (run.tree.node h).status = .integer ∧
    run.tree.stats.upper = (run.tree.node h).lpValue ∧
    run.incumbentValues = (run.tree.node h).solution ∧
    ∀ k ≠ h, (run.tree.node k).status = .integer →
      run.tree.stats.upper < (run.tree.node k).lpValue

namespace Leading

theorem congr (hl : Leading run) (hincumbent : run'.tree.incumbent = run.tree.incumbent)
    (hupper : run'.tree.stats.upper = run.tree.stats.upper)
    (hvalues : run'.incumbentValues = run.incumbentValues)
    (hnodes : ∀ k, (run.tree.node k).status = .integer ∨ (run'.tree.node k).status = .integer →
      run'.tree.node k = run.tree.node k) : Leading run' := by
  refine ⟨hupper ▸ hl.number, fun hnone => ?_, fun i hi => ?_⟩
  · obtain ⟨hinfinite, hempty, hnoninteger⟩ := hl.none (hincumbent ▸ hnone)
    refine ⟨hupper.trans hinfinite, hvalues.trans hempty, fun k hk => ?_⟩
    exact hnoninteger k (hnodes k (Or.inr hk) ▸ hk)
  · obtain ⟨hinteger, hvalue, hsolution, hleast⟩ := hl.some i (hincumbent ▸ hi)
    rw [hnodes i (Or.inl hinteger), hupper, hvalues]
    refine ⟨hinteger, hvalue, hsolution, fun k hki hk => ?_⟩
    have hsame := hnodes k (Or.inr hk)
    rw [hsame] at hk ⊢
    exact hleast k hki hk

theorem of_tree (hl : Leading run) (htree : run'.tree = run.tree)
    (hvalues : run'.incumbentValues = run.incumbentValues) : Leading run' :=
  hl.congr (by rw [htree]) (by rw [htree]) hvalues fun _ _ => by rw [htree]

/-- The upper bound is at most the value of any integral node. -/
theorem upper_le (hl : Leading run) (hinteger : (run.tree.node k).status = .integer) :
    run.tree.stats.upper ≤ (run.tree.node k).lpValue := by
  cases hincumbent : run.tree.incumbent with
  | none => exact absurd hinteger ((hl.none hincumbent).2.2 k)
  | some i =>
      obtain ⟨-, hupper, -, hleast⟩ := hl.some i hincumbent
      by_cases hki : k = i
      · rw [hki, ← hupper]
        exact Extended.le_refl hl.number
      · exact Extended.le_of_lt (hleast k hki hinteger)

/-- A pending node is not integral, and taking it up changes no other one. -/
theorem take (hl : Leading run) (hpending : (run.tree.node h).isPending = true)
    (htree : run'.tree = run.tree.modify h fun n => { n with status := .processing })
    (hvalues : run'.incumbentValues = run.incumbentValues) : Leading run' := by
  refine hl.congr (by rw [htree]; rfl) (by rw [htree]; rfl) hvalues fun k hinteger => ?_
  rw [htree, Tree.node_modify] at hinteger ⊢
  split at hinteger
  · rename_i hk
    rw [hk.1, Node.isPending_iff.mp hpending] at hinteger
    rcases hinteger with hinteger | hinteger <;> cases hinteger
  · rename_i hk
    rw [if_neg hk]

theorem close (hl : Leading run) {answer : Answer Extended}
    (hcloses : Closes p config h run answer run') (hgap : config.gapTolerance = .finite gap)
    (hnonneg : 0 ≤ gap) (hprocessing : (run.tree.node h).status = .processing)
    (hbounded : (run.tree.node h).lowerBound ≠ .undefined)
    (hnumber : ∀ z values, answer = .solved z values → z ≠ .undefined) : Leading run' := by
  have hlt : h < run.tree.records.size := Tree.lt_of_status (by simp [hprocessing])
  cases hcloses.recorded hlt with
  | kept incumbent upper values status =>
      refine hl.congr incumbent upper values fun k hinteger => ?_
      by_cases hkh : k = h
      · rw [hkh, hprocessing] at hinteger
        exact absurd (hinteger.resolve_left nofun) status
      · exact hcloses.integer_other hlt hkh hinteger
  | improved better incumbent upper kept status value solution =>
      have hz := hnumber _ _ rfl
      have hbelow := lt_of_better hlt hbounded hl.number hgap hz better
      refine ⟨upper ▸ hz, fun hnone => ?_, fun i hi => ?_⟩
      · rw [incumbent] at hnone
        cases hnone
      · obtain rfl := Option.some.inj (incumbent.symm.trans hi)
        refine ⟨status, upper.trans value.symm, kept.trans solution.symm, fun k hkh hk => ?_⟩
        have hsame := hcloses.integer_other hlt hkh (Or.inr hk)
        rw [hsame] at hk ⊢
        rw [upper]
        exact Extended.lt_of_lt_of_le hbelow
          (Extended.le_trans (Extended.sub_finite_le hl.number hnonneg) (hl.upper_le hk))

end Leading

theorem leading_outset (s : Solver Extended μ σ) : Leading (outset s) := by
  refine ⟨nofun, fun _ => ⟨rfl, rfl, fun k hinteger => ?_⟩, nofun⟩
  rw [show (outset s).tree = Tree.initial from rfl, Tree.node_initial] at hinteger
  cases hinteger

/-! ### Whole searches -/

section Searches

variable {s : Solver Extended μ σ} {place place' : Place Extended}

theorem Reaches.closing {answer : Answer Extended}
    (hreached : Reaches s.problem config (outset s) (.closing h answer) run)
    (hafter : KeepsTree s.problem)
    (hnumber : ∀ {w w' z values}, s.problem.solve.Gives w (.solved z values) w' → z ≠ .undefined) :
    (run.tree.node h).status = .processing ∧ (run.tree.node h).lowerBound ≠ .undefined ∧
      ∀ z values, answer = .solved z values → z ≠ .undefined := by
  obtain ⟨visited, hl⟩ := hreached.ledger hafter
  have hgrounded := (hreached.vouched hnumber fun after => hafter after ▸ .refl _).2
  refine ⟨(hl.processing h).mpr rfl, hl.bounded h, fun z values heq => ?_⟩
  subst heq
  exact hgrounded.2.1

theorem Reaches.leading (hreached : Reaches s.problem config (outset s) place run)
    (hafter : KeepsTree s.problem)
    (hnumber : ∀ {w w' z values}, s.problem.solve.Gives w (.solved z values) w' → z ≠ .undefined)
    (hgap : config.gapTolerance = .finite gap) (hnonneg : 0 ≤ gap) : Leading run := by
  induction hreached with
  | start => exact leading_outset s
  | step before next ih =>
      cases moves_of_gives next with
      | done | rested => exact ih
      | drained => exact ih.of_tree rfl rfl
      | taken popped kept =>
          obtain ⟨visited, hl⟩ := before.ledger hafter
          obtain ⟨-, hpending, -, -⟩ := hl.fits.handles_pop (fun _ => hl.isPending) popped
          exact ih.take hpending kept.tree kept.incumbentValues
      | moved move =>
          obtain ⟨trail, world, -, rfl⟩ := gives_goTo.mp move
          exact ih.of_tree rfl rfl
      | again round | answered round =>
          obtain ⟨hkept, -, -⟩ := rounds_of_gives round
          exact ih.of_tree hkept.tree hkept.incumbentValues
      | closed close =>
          obtain ⟨hprocessing, hbounded, hz⟩ := before.closing hafter hnumber
          exact ih.close (closes_of_gives close) hgap hnonneg hprocessing hbounded hz
      | returned after => exact ih.of_tree (hafter after) rfl

/-- Only closing a node makes a new incumbent, which improves the upper bound by more than the gap.
-/
theorem Reaches.improves (hreached : Reaches s.problem config (outset s) place run)
    (hafter : KeepsTree s.problem)
    (hnumber : ∀ {w w' z values}, s.problem.solve.Gives w (.solved z values) w' → z ≠ .undefined)
    (hgap : config.gapTolerance = .finite gap) (hnonneg : 0 ≤ gap)
    (next : (advance s.problem config place).Gives run place' run')
    (hnew : run'.tree.incumbent ≠ run.tree.incumbent) :
    ∃ h, run'.tree.incumbent = some h ∧
      (run'.tree.node h).lpValue < run.tree.stats.upper - .finite gap := by
  rcases (moves_of_gives next).tree_cases hafter with htree | ⟨h, htree⟩ | ⟨h, answer, rfl, hcloses⟩
  · exact absurd (congrArg Tree.incumbent htree) hnew
  · exact absurd (congrArg Tree.incumbent htree) hnew
  · obtain ⟨hprocessing, hbounded, hz⟩ := hreached.closing hafter hnumber
    have hlt : h < run.tree.records.size := Tree.lt_of_status (by simp [hprocessing])
    have hnumber' := (hreached.leading hafter hnumber hgap hnonneg).number
    cases hcloses.recorded hlt with
    | kept incumbent => exact absurd incumbent hnew
    | improved better incumbent _ _ _ value _ =>
        refine ⟨h, incumbent, ?_⟩
        rw [value]
        exact lt_of_better hlt hbounded hnumber' hgap (hz _ _ rfl) better

theorem gap_of_unknown {stats : TreeStats Extended}
    (hunknown : stats.upper = .infinity ∨ stats.lower = .negInfinity) : stats.gap = .infinity := by
  have hbeq : (stats.upper == Scalar.infinity || stats.lower == Scalar.negInfinity) = true := by
    rw [Bool.or_eq_true, Extended.beq_iff, Extended.beq_iff]
    rcases hunknown with heq | heq
    · rw [heq]
      exact Or.inl trivial
    · rw [heq]
      exact Or.inr trivial
  rw [TreeStats.gap, if_pos hbeq]
  rfl

/-- The gap is not negative when the bounds are in order. -/
theorem gap_nonneg {stats : TreeStats Extended} (hle : stats.lower ≤ stats.upper) :
    .finite 0 ≤ stats.gap := by
  have hunknown : stats.upper = .infinity ∨ stats.lower = .negInfinity → .finite 0 ≤ stats.gap :=
    fun hunknown => by rw [gap_of_unknown hunknown, Extended.le_infinity]; nofun
  cases hupper : stats.upper with
  | infinity => exact hunknown (Or.inl hupper)
  | negInfinity =>
      rw [hupper, Extended.le_negInfinity] at hle
      exact hunknown (Or.inr hle)
  | undefined =>
      rw [hupper] at hle
      exact absurd hle (Extended.not_le_undefined _)
  | finite u =>
      cases hlower : stats.lower with
      | negInfinity => exact hunknown (Or.inr hlower)
      | infinity | undefined => simp [hupper, hlower] at hle
      | finite l =>
          rw [hupper, hlower, Extended.finite_le_finite] at hle
          rw [gap_finite hupper hlower]
          split
          · split
            · exact Extended.le_refl nofun
            · rw [Extended.le_infinity]
              nofun
          · rw [Extended.finite_le_finite]
            exact div_nonneg (by linarith) (abs_nonneg u)

/-- The end of a search that returns: the global lower bound is set, and the trail goes home. -/
theorem Reaches.of_solve {steps : Nat} {timeLimit : Option Extended} {nodeLimit : Option Int}
    {solution : Solution Extended} {s' : Solver Extended μ σ}
    (hsolve : s.solve steps timeLimit nodeLimit = (.ok solution, run, s')) :
    ∃ run₁, Reaches s.problem (Solver.limited s.config timeLimit nodeLimit) (outset s) .ended run₁ ∧
      (Run.goHome s.problem).Gives { run₁ with
        tree := run₁.tree.setLower
          (Scalar.smaller (run₁.queue.bestBound run₁.tree) run₁.tree.stats.upper) } () run ∧
      solution = run.solution s.problem (Solver.limited s.config timeLimit nodeLimit) := by
  simp only [Solver.solve, Prod.mk.injEq] at hsolve
  exact Reaches.complete (Prod.ext hsolve.1 hsolve.2.1)

end Searches

/-- In every search whose objectives are numbers, each new incumbent has a value below the upper
bound before by more than the gap of the settings, and the upper bound is always the value of the
incumbent, or infinite without one. When the search returns, the objective and the upper bound are
the least value of an integral node, which no other such node attains, and the values are the
solution of that node; without integral nodes they are infinite and there are no values. The lower
bound is at most the upper one, and the gap is not negative. -/
theorem incumbents_improve (s : Solver Extended μ σ) (hafter : KeepsTree s.problem)
    (hnumber : ∀ {w w' z values}, s.problem.solve.Gives w (.solved z values) w' → z ≠ .undefined)
    (timeLimit : Option Extended) (nodeLimit : Option Int)
    (hgap : s.config.gapTolerance = .finite gap) (hnonneg : 0 ≤ gap) :
    (∀ {place run place' run'},
      Reaches s.problem (Solver.limited s.config timeLimit nodeLimit) (outset s) place run →
      (advance s.problem (Solver.limited s.config timeLimit nodeLimit) place).Gives
        run place' run' →
      run'.tree.incumbent ≠ run.tree.incumbent → ∃ h, run'.tree.incumbent = some h ∧
        (run'.tree.node h).lpValue < run.tree.stats.upper - .finite gap) ∧
    (∀ {place run},
      Reaches s.problem (Solver.limited s.config timeLimit nodeLimit) (outset s) place run →
        run.tree.stats.upper =
          run.tree.incumbent.elim .infinity fun h => (run.tree.node h).lpValue) ∧
    ∀ {steps solution run s'}, s.solve steps timeLimit nodeLimit = (.ok solution, run, s') →
      solution.objective = solution.upper ∧
      ((∃ h, (run.tree.node h).status = .integer ∧
          solution.upper = (run.tree.node h).lpValue ∧
          solution.values = (run.tree.node h).solution ∧
          ∀ k ≠ h, (run.tree.node k).status = .integer →
            solution.upper < (run.tree.node k).lpValue) ∨
        ((∀ k, (run.tree.node k).status ≠ .integer) ∧ solution.upper = .infinity ∧
          solution.values = Mapping.empty)) ∧
      solution.lower ≤ solution.upper ∧ .finite 0 ≤ solution.gap := by
  have hvalue : ∀ {run : Run Extended μ σ}, Leading run → run.tree.stats.upper =
      run.tree.incumbent.elim .infinity fun h => (run.tree.node h).lpValue := by
    intro run hl
    cases hincumbent : run.tree.incumbent with
    | none => exact (hl.none hincumbent).1
    | some h => exact (hl.some h hincumbent).2.1
  refine ⟨fun hreached next hnew => hreached.improves hafter hnumber hgap hnonneg next hnew,
    fun hreached => hvalue (hreached.leading hafter hnumber hgap hnonneg),
    fun {steps solution run s'} hsolve => ?_⟩
  obtain ⟨run₁, hended, hhome, rfl⟩ := Reaches.of_solve hsolve
  have htree := congrArg Run.tree (gives_goHome hhome)
  have hvalues := congrArg Run.incumbentValues (gives_goHome hhome)
  have hl₁ := hended.leading hafter hnumber hgap hnonneg
  have hl : Leading run := hl₁.congr (by rw [htree]; rfl) (by rw [htree]; rfl) hvalues
    fun _ _ => by rw [htree]; rfl
  have hle : run.tree.stats.lower ≤ run.tree.stats.upper := by
    obtain ⟨visited, hledger⟩ := hended.ledger hafter
    obtain ⟨hbest, -⟩ := hledger.fits.bestBound_le hledger.bounded
    rw [htree]
    exact (Extended.smaller_spec hbest hl₁.number).2.2
  refine ⟨?_, ?_, hle, gap_nonneg hle⟩
  · refine Eq.trans ?_ (hvalue hl).symm
    simp only [Run.solution]
    cases run.tree.incumbent with
    | none => rfl
    | some h => rfl
  · cases hincumbent : run.tree.incumbent with
    | none =>
        obtain ⟨hinfinite, hempty, hnoninteger⟩ := hl.none hincumbent
        exact Or.inr ⟨hnoninteger, hinfinite, hempty⟩
    | some h => exact Or.inl ⟨h, hl.some h hincumbent⟩

/-- A relaxation that has a tour at each child of the root, of value 4 at the first one and of value
3 at the second. -/
def fallingRules : List (ScriptRule Extended) :=
  [⟨[[.int 0, .int 1]], [], 0, 0, .finite 1, .solved (.finite 4)
      ⟨[([.int 0, .int 1], .finite 1), ([.int 1, .int 2], .finite 1),
        ([.int 0, .int 2], .finite 1)]⟩⟩,
    ⟨[], [[.int 0, .int 1]], 0, 0, .finite 1, .solved (.finite 3)
      ⟨[([.int 0, .int 1], .finite 1), ([.int 1, .int 2], .finite 1),
        ([.int 0, .int 2], .finite 1)]⟩⟩,
    ⟨[], [], 0, 0, .finite 1, .solved (.finite 2)
      ⟨[([.int 0, .int 1], .finite (1 / 2)), ([.int 1, .int 2], .finite 1),
        ([.int 0, .int 2], .finite 1)]⟩⟩]

def fallingSolver : Solver Extended Move (Stage Extended) :=
  { narrowSolver with
    problem := Script.problem ⟨fallingRules, .dedupe, []⟩ (.edges EdgeBranching.standard) }

/-- The second child takes the place of the first one. -/
theorem incumbents_improve_falling :
    (∃ place run place' run',
      Reaches fallingSolver.problem fallingSolver.config (outset fallingSolver) place run ∧
      run.tree.stats.upper = .finite 4 ∧ run'.tree.incumbent = some 2 ∧
      (advance fallingSolver.problem fallingSolver.config place).Gives run place' run' ∧
      (run'.tree.node 2).lpValue < run.tree.stats.upper - .finite 0) ∧
    ∃ solution run s', fallingSolver.solve 10 none none = (.ok solution, run, s') ∧
      (run.tree.node 1).status = .integer ∧ solution.objective = solution.upper ∧
      solution.upper < (run.tree.node 1).lpValue ∧ solution.lower ≤ solution.upper ∧
      .finite 0 ≤ solution.gap := by
  have hnumber : ∀ {w w' z values},
      fallingSolver.problem.solve.Gives w (.solved z values) w' → z ≠ .undefined := by
    refine number_script (fun rule hrule z values hanswer => ?_) .dedupe _
    simp only [fallingRules, List.mem_cons, List.not_mem_nil, or_false] at hrule
    rcases hrule with rfl | rfl | rfl <;> cases hanswer <;> simp
  obtain ⟨himproves, -, hreturned⟩ := incumbents_improve fallingSolver (keepsTree_script _ _ _)
    hnumber none none rfl (le_refl 0)
  refine ⟨?_, ?_⟩
  · -- The fourteenth step closes the second child.
    have hafter : (orbit fallingSolver.problem fallingSolver.config (outset fallingSolver) 14).any
        (fun y => decide (y.2.tree.incumbent = some 2)) = true := by decide +kernel
    have hbefore : (orbit fallingSolver.problem fallingSolver.config (outset fallingSolver) 13).any
        (fun x => decide (x.2.tree.incumbent = some 1 ∧ x.2.tree.stats.upper = .finite 4)) =
          true := by decide +kernel
    obtain ⟨⟨place', run'⟩, hy, hincumbent'⟩ := (Option.any_eq_true _ _).mp hafter
    obtain ⟨⟨place, run⟩, hx, hnext⟩ := exists_of_orbit_succ hy
    rw [hx] at hbefore
    obtain ⟨hincumbent, hupper⟩ := of_decide_eq_true hbefore
    have hsecond := of_decide_eq_true hincumbent'
    have hnew : run'.tree.incumbent ≠ run.tree.incumbent := by
      rw [hincumbent, hsecond]
      nofun
    obtain ⟨h, hh, hbelow⟩ := himproves (reaches_of_mem_orbit hx) hnext hnew
    obtain rfl := Option.some.inj (hsecond.symm.trans hh)
    exact ⟨place, run, place', run', reaches_of_mem_orbit hx, hupper, hsecond, hnext, hbelow⟩
  · have hends : (fallingSolver.solve 10 none none).1.toOption.map (·.upper) = some (.finite 3) ∧
        ((fallingSolver.solve 10 none none).2.1.tree.node 1).status = .integer ∧
        ((fallingSolver.solve 10 none none).2.1.tree.node 1).lpValue = .finite 4 := by
      decide +kernel
    rcases hsolve : fallingSolver.solve 10 none none with ⟨_ | solution, run, s'⟩
    · simp [hsolve, Except.toOption] at hends
    · rw [hsolve] at hends
      obtain ⟨hupper, hstatus, hvalue⟩ := hends
      rw [Except.toOption, Option.map_some, Option.some.injEq] at hupper
      obtain ⟨hobjective, hleast, hle, hgap⟩ := hreturned hsolve
      refine ⟨solution, run, s', rfl, hstatus, hobjective, ?_, hle, hgap⟩
      rcases hleast with ⟨h, -, hattained, -, hothers⟩ | ⟨hnone, -⟩
      · refine hothers 1 ?_ hstatus
        rintro rfl
        rw [hupper, hvalue, Extended.finite.injEq] at hattained
        norm_num at hattained
      · exact absurd hstatus (hnone 1)

end Search

end TourSearch
