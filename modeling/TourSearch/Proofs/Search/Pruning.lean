import TourSearch.Proofs.Arena
import TourSearch.Proofs.Search.Acceptance
import TourSearch.Proofs.Search.OpenNodes
import Mathlib

/-!
Pruning by bound. A node is pruned in two places: alone, when its own bound comes within the gap of
the upper bound, and in bulk, when a new incumbent has lowered the upper bound. The first uses the
gap of the settings and the second a tolerance of its own, so that what a search rules out is known
only up to the larger of the two (`pruned_within_tolerances`). With a smaller gap in the settings a
node can be lost that the gap would keep (`bulk_pruning_exceeds_gap`).
-/

namespace TourSearch

open Numeric

theorem Tree.length_children_createEach {α μ : Type} [Scalar α] {t : Tree α μ} {parent : Nat}
    (hlt : parent < t.records.size) (ds : List (Decision μ)) :
    ((t.createEach parent ds).2.node parent).children.length =
      (t.node parent).children.length + ds.length := by
  induction ds generalizing t with
  | nil => rfl
  | cons d ds ih =>
      have hlt' : parent < (t.createChild parent d).2.records.size := by
        rw [size_createChild]
        omega
      rw [createEach, ih hlt', children_createChild hlt d (Nat.ne_of_lt hlt), if_pos rfl,
        List.length_append, List.length_singleton, List.length_cons]
      omega

namespace Search

variable {μ σ : Type} {p : Problem Extended μ σ} {config : SearchConfig Extended}
  {start run run' : Run Extended μ σ} {h k : Nat}

/-! ### What closing a node does to each node -/

/-- A node with fractional values that could improve the upper bound gets no child: there is no way
to split it, or the best one has no decisions. -/
def Unsplit (p : Problem Extended μ σ) (config : SearchConfig Extended) (h : Handle)
    (run : Run Extended μ σ) : Answer Extended → Prop
  | .infeasible => False
  | .solved z values =>
      ¬Hopeless config run.tree h z ∧ values.isIntegral config.integralityTolerance = .ok false ∧
        ∃ cs world,
          (p.candidates ((solvedTree run.tree h z).node h) values).Gives run.world cs world ∧
          ∀ c, Candidate.best? cs = some c → c.decisions = []

inductive Verdict (p : Problem Extended μ σ) (config : SearchConfig Extended) (h : Handle)
    (run run' : Run Extended μ σ) (answer : Answer Extended) : Prop where
  | infeasible (status : (run'.tree.node h).status = .prunedInfeasible)
  | bound (status : (run'.tree.node h).status = .prunedBound)
      (reached : run'.tree.stats.upper - config.gapTolerance ≤ (run'.tree.node h).lowerBound)
  | integer (status : (run'.tree.node h).status = .integer)
  | fathomed (status : (run'.tree.node h).status = .fathomed)
      (unsplit : Unsplit p config h run answer)
  | branched (status : (run'.tree.node h).status = .branched)
      (children : (run'.tree.node h).children ≠ [] ∨ Unsplit p config h run answer)

theorem Closes.verdict {answer : Answer Extended} (hcloses : Closes p config h run answer run')
    (hlt : h < run.tree.records.size) : Verdict p config h run run' answer := by
  have hmarked : ∀ {t : Tree Extended μ} (status : NodeStatus),
      t.records.size = run.tree.records.size →
        (t.markProcessed h status).node h = { t.node h with status } := fun status hsize =>
    Tree.node_modify_self _ (hsize ▸ hlt) _
  have hsize : ∀ z, (solvedTree run.tree h z).records.size = run.tree.records.size := fun z =>
    Tree.size_modify _ _ _
  cases hcloses with
  | infeasible => exact .infeasible (congrArg Node.status (hmarked .prunedInfeasible rfl))
  | @hopeless z _ reached =>
      have hself := hmarked .prunedBound (hsize z)
      rw [Hopeless, Node.reaches_iff] at reached
      refine .bound (congrArg Node.status hself) ?_
      rw [Tree.upper_markProcessed, hself]
      exact reached
  | @incumbent z values _ _ =>
      have hpruned := Tree.pruned_pruneByBound (accepted (solvedTree run.tree h z) h values)
      have hself := node_accepted_self (hsize z ▸ hlt) values
      have hstatus : ((accepted (solvedTree run.tree h z) h values).node h).status = .integer := by
        rw [hself]
      rcases hpruned.nodes h with hsame | ⟨hpending, -, -⟩
      · exact .integer ((congrArg Node.status hsame).trans hstatus)
      · rw [Node.isPending_iff, hstatus] at hpending
        cases hpending
  | @givenUp z values cs world better fractional proposed hnone =>
      refine .fathomed (congrArg Node.status (hmarked .fathomed (hsize z))) ?_
      refine ⟨better, fractional, cs, world, proposed, fun c hc => ?_⟩
      rw [hnone] at hc
      cases hc
  | @branched z values cs c world better fractional proposed best =>
      have hlt' : h < (solvedTree run.tree h z).records.size := hsize z ▸ hlt
      have hself : ((solvedTree run.tree h z).createChildren h c.decisions).2.node h =
          { ((solvedTree run.tree h z).createEach h c.decisions).2.node h with
            status := .branched } := by
        refine Tree.node_modify_self _ ?_ _
        rw [(Tree.spawned_createEach hlt' c.decisions).size_eq]
        exact Nat.lt_add_right _ hlt'
      refine .branched (congrArg Node.status hself) ?_
      by_cases hnone : c.decisions = []
      · right
        refine ⟨better, fractional, cs, world, proposed, fun c' hc' => ?_⟩
        obtain rfl := Option.some.inj (best.symm.trans hc')
        exact hnone
      · left
        have hlength := (congrArg (fun n => n.children.length) hself).trans
          (Tree.length_children_createEach hlt' c.decisions)
        have hpos := List.length_pos_of_ne_nil hnone
        exact List.ne_nil_of_length_pos (hlength ▸ Nat.add_pos_right _ hpos)

/-- Any other node: it is left alone, pruned in bulk because of a new incumbent, or created. -/
theorem Closes.other {answer : Answer Extended} (hcloses : Closes p config h run answer run')
    (hlt : h < run.tree.records.size) (hne : k ≠ h) :
    run'.tree.node k = run.tree.node k ∨
    ((run.tree.node k).status = .pending ∧ run'.tree.incumbent = some h ∧
      run'.tree.stats.upper - .finite (1 / 1000000) ≤ (run.tree.node k).lowerBound ∧
      run'.tree.node k = { run.tree.node k with status := .prunedBound }) ∨
    (run.tree.records.size ≤ k ∧ (run'.tree.node k).status = .pending) := by
  have hsolved : ∀ z, (solvedTree run.tree h z).node k = run.tree.node k := fun z =>
    Tree.node_modify_of_ne _ hne _
  cases hcloses with
  | infeasible => exact Or.inl (Tree.node_modify_of_ne _ hne _)
  | @hopeless z => exact Or.inl ((Tree.node_modify_of_ne _ hne _).trans (hsolved z))
  | @incumbent z values _ _ =>
      have hpruned := Tree.pruned_pruneByBound (accepted (solvedTree run.tree h z) h values)
      have hnode := (node_accepted_of_ne hne values).trans (hsolved z)
      rcases hpruned.nodes k with hsame | ⟨hpending, hreached, hclosed⟩
      · exact Or.inl (hsame.trans hnode)
      · rw [hnode] at hpending hreached hclosed
        rw [← hpruned.upper_eq] at hreached
        exact Or.inr (Or.inl ⟨Node.isPending_iff.mp hpending, hpruned.incumbent_eq, hreached,
          hclosed⟩)
  | @givenUp z => exact Or.inl ((Tree.node_modify_of_ne _ hne _).trans (hsolved z))
  | @branched z values cs c world _ _ _ _ =>
      have hsize : (solvedTree run.tree h z).records.size = run.tree.records.size :=
        Tree.size_modify _ _ _
      have hb := Tree.branched_createChildren (hsize ▸ hlt) c.decisions
      by_cases hk : k < run.tree.records.size
      · exact Or.inl ((hb.old k (hsize ▸ hk) hne).trans (hsolved z))
      · refine Or.inr (Or.inr ⟨Nat.le_of_not_lt hk, ?_⟩)
        rcases hb.cases k with ⟨hold, -⟩ | ⟨i, d, -, -, hnew⟩ | ⟨-, hnew⟩
        · exact absurd (hsize ▸ hold) hk
        · exact congrArg Node.status hnew
        · exact congrArg Node.status hnew

/-! ### One step -/

/-- A node that is closed, or pruned because of the node that is closed. -/
theorem Closes.pruned {answer : Answer Extended} (hcloses : Closes p config h run answer run')
    (hlt : h < run.tree.records.size) (hbefore : (run.tree.node k).status ≠ .prunedBound)
    (hafter : (run'.tree.node k).status = .prunedBound) :
    (k = h ∧ run'.tree.stats.upper - config.gapTolerance ≤ (run'.tree.node k).lowerBound) ∨
    (k ≠ h ∧ run'.tree.incumbent = some h ∧ (run.tree.node k).status = .pending ∧
      run'.tree.stats.upper - .finite (1 / 1000000) ≤ (run'.tree.node k).lowerBound) := by
  by_cases hk : k = h
  · subst hk
    refine Or.inl ⟨rfl, ?_⟩
    cases hcloses.verdict hlt with
    | bound _ reached => exact reached
    | infeasible status | integer status | fathomed status | branched status =>
        rw [status] at hafter
        cases hafter
  · refine Or.inr ⟨hk, ?_⟩
    rcases hcloses.other hlt hk with hsame | ⟨hpending, hincumbent, hreached, hnode⟩ | ⟨-, hnew⟩
    · exact absurd (hsame ▸ hafter) hbefore
    · exact ⟨hincumbent, hpending, by rw [hnode]; exact hreached⟩
    · rw [hnew] at hafter
      cases hafter

theorem Moves.tree_cases {place place' : Place Extended}
    (hmoves : Moves p config place run place' run') (hafter : KeepsTree p) :
    run'.tree = run.tree ∨
    (∃ h, run'.tree = run.tree.modify h fun n => { n with status := .processing }) ∨
    ∃ h answer, place = .closing h answer ∧ Closes p config h run answer run' := by
  cases hmoves with
  | done | drained | rested => exact Or.inl rfl
  | taken _ kept => exact Or.inr (Or.inl ⟨_, kept.tree⟩)
  | moved move =>
      obtain ⟨trail, world, -, rfl⟩ := gives_goTo.mp move
      exact Or.inl rfl
  | again round | answered round => exact Or.inl (rounds_of_gives round).1.tree
  | closed close => exact Or.inr (Or.inr ⟨_, _, rfl, closes_of_gives close⟩)
  | returned after => exact Or.inl (hafter after)

/-- Nodes are pruned when a node is closed and at no other step. -/
theorem pruned_of_moves {place place' : Place Extended} (hafter : KeepsTree p)
    (hmoves : Moves p config place run place' run')
    (hbefore : (run.tree.node k).status ≠ .prunedBound)
    (hpruned : (run'.tree.node k).status = .prunedBound) :
    ∃ h answer, place = .closing h answer ∧ Closes p config h run answer run' := by
  rcases hmoves.tree_cases hafter with htree | ⟨h, htree⟩ | hcloses
  · exact absurd (htree ▸ hpruned) hbefore
  · rw [htree, Tree.node_modify] at hpruned
    split at hpruned
    · cases hpruned
    · exact absurd hpruned hbefore
  · exact hcloses

/-! ### Whole searches -/

/-- A new incumbent lowers the upper bound, and nothing else changes it. -/
theorem Closes.upper_le {answer : Answer Extended} (hcloses : Closes p config h run answer run')
    {gap : Rat} (hgap : config.gapTolerance = .finite gap) (hnonneg : 0 ≤ gap)
    (hlt : h < run.tree.records.size) (hbounded : (run.tree.node h).lowerBound ≠ .undefined)
    (hnumber : ∀ z values, answer = .solved z values → z ≠ .undefined)
    (hupper : run.tree.stats.upper ≠ .undefined) :
    run'.tree.stats.upper ≤ run.tree.stats.upper := by
  have hrefl := Extended.le_refl hupper
  cases hcloses with
  | infeasible | hopeless | givenUp =>
      rw [Tree.upper_markProcessed]
      exact hrefl
  | @incumbent z values better _ =>
      have hbelow := lt_of_not_hopeless hlt hbounded hupper hgap better
      have hlt' : h < (solvedTree run.tree h z).records.size :=
        (Tree.size_modify run.tree h _).symm ▸ hlt
      have hvalue : ((accepted (solvedTree run.tree h z) h values).node h).lpValue = z := by
        rw [node_accepted_self hlt', solvedTree, Tree.node_modify_self _ hlt]
        rfl
      have hnew : (accepted (solvedTree run.tree h z) h values).pruneByBound.2.stats.upper = z :=
        (Tree.pruned_pruneByBound _).upper_eq.trans hvalue
      rw [hnew]
      exact Extended.le_trans (le_larger hbounded (hnumber z values rfl))
        (Extended.le_trans (Extended.le_of_lt hbelow) (Extended.sub_finite_le hupper hnonneg))
  | @branched z _ _ c _ _ _ _ _ =>
      have hb := Tree.branched_createChildren
        ((Tree.size_modify run.tree h (solvedNode z)).symm ▸ hlt) c.decisions
      exact hb.upper_eq.symm ▸ hrefl

/-- Every pruned node has a bound within a tolerance of the upper bound. -/
structure Guarded (tolerance : Rat) (run : Run Extended μ σ) : Prop where
  upper : run.tree.stats.upper ≠ .undefined
  pruned : ∀ k, (run.tree.node k).status = .prunedBound →
    run.tree.stats.upper - .finite tolerance ≤ (run.tree.node k).lowerBound

theorem Guarded.congr {tolerance : Rat} (hg : Guarded tolerance run)
    (htree : run'.tree = run.tree) : Guarded tolerance run' := by
  refine ⟨htree ▸ hg.upper, fun k hk => ?_⟩
  rw [htree] at hk ⊢
  exact hg.pruned k hk

/-- Closing the node in hand keeps the pruned nodes where they belong. -/
theorem Guarded.close {gap tolerance : Rat} (hg : Guarded tolerance run)
    {answer : Answer Extended} (hcloses : Closes p config h run answer run')
    (hgap : config.gapTolerance = .finite gap) (hnonneg : 0 ≤ gap) (hle : gap ≤ tolerance)
    (hmillionth : 1 / 1000000 ≤ tolerance) (hprocessing : (run.tree.node h).status = .processing)
    (hbounded : (run.tree.node h).lowerBound ≠ .undefined)
    (hnumber : ∀ z values, answer = .solved z values → z ≠ .undefined) :
    Guarded tolerance run' := by
  have hlt : h < run.tree.records.size := Tree.lt_of_status (by simp [hprocessing])
  have hlower := hcloses.upper_le hgap hnonneg hlt hbounded hnumber hg.upper
  have hupper := (Extended.ne_undefined_of_le hlower).1
  refine ⟨hupper, fun k hafter => ?_⟩
  by_cases hbefore : (run.tree.node k).status = .prunedBound
  · -- The bound of a node that was pruned before stays, while the upper bound can only fall.
    have hk : k ≠ h := by
      rintro rfl
      rw [hprocessing] at hbefore
      cases hbefore
    rcases hcloses.other hlt hk with hsame | ⟨hpending, -⟩ | ⟨-, hnew⟩
    · rw [hsame]
      exact Extended.le_trans (Extended.sub_finite_le_sub_finite hlower tolerance)
        (hg.pruned k hbefore)
    · rw [hbefore] at hpending
      cases hpending
    · rw [hnew] at hafter
      cases hafter
  · rcases hcloses.pruned hlt hbefore hafter with ⟨-, hreached⟩ | ⟨-, -, -, hreached⟩
    · rw [hgap] at hreached
      exact Extended.le_trans (Extended.sub_finite_anti hupper hle) hreached
    · exact Extended.le_trans (Extended.sub_finite_anti hupper hmillionth) hreached

theorem Guarded.take {tolerance : Rat} (hg : Guarded tolerance run)
    (htree : run'.tree = run.tree.modify h fun n => { n with status := .processing }) :
    Guarded tolerance run' := by
  refine ⟨htree ▸ hg.upper, fun k hk => ?_⟩
  rw [htree, Tree.node_modify] at hk ⊢
  split at hk
  · cases hk
  · rename_i hother
    rw [if_neg hother]
    exact hg.pruned k hk

theorem guarded_outset (s : Solver Extended μ σ) (tolerance : Rat) :
    Guarded tolerance (outset s) := by
  refine ⟨?_, fun k hk => ?_⟩
  · exact nofun
  · rw [show (outset s).tree = Tree.initial from rfl, Tree.node_initial] at hk
    cases hk

theorem Reaches.ledger {s : Solver Extended μ σ} {place : Place Extended}
    (hreached : Reaches s.problem config (outset s) place run) (hafter : KeepsTree s.problem) :
    ∃ visited, Ledger visited place.hand run := by
  obtain ⟨visited, hvisits⟩ := hreached.visits
  exact ⟨visited, hvisits.ledger hafter (ledger_outset s)⟩

theorem Reaches.guarded {s : Solver Extended μ σ} {gap tolerance : Rat} {place : Place Extended}
    (hreached : Reaches s.problem config (outset s) place run) (hafter : KeepsTree s.problem)
    (hnumber : ∀ {w w' z values}, s.problem.solve.Gives w (.solved z values) w' → z ≠ .undefined)
    (hgap : config.gapTolerance = .finite gap) (hnonneg : 0 ≤ gap) (hle : gap ≤ tolerance)
    (hmillionth : 1 / 1000000 ≤ tolerance) : Guarded tolerance run := by
  induction hreached with
  | start => exact guarded_outset s tolerance
  | step before next ih =>
      rcases (moves_of_gives next).tree_cases hafter with
        htree | ⟨h, htree⟩ | ⟨h, answer, rfl, hcloses⟩
      · exact ih.congr htree
      · exact ih.take htree
      · obtain ⟨visited, hl⟩ := before.ledger hafter
        have hgrounded := (before.vouched hnumber fun after => hafter after ▸ .refl _).2
        refine ih.close hcloses hgap hnonneg hle hmillionth ((hl.processing h).mpr rfl)
          (hl.bounded h) fun z values heq => ?_
        subst heq
        exact hgrounded.2.1

/-- A node is pruned by bound when it is closed itself, and then its bound comes within the gap of
the upper bound; or it waits when another node becomes the incumbent, and then its bound comes
within a millionth of the upper bound. As the upper bound only falls, all nodes pruned by bound have
bounds within the larger of the two, at any time of a search whose objectives are numbers. -/
theorem pruned_within_tolerances (s : Solver Extended μ σ) (hafter : KeepsTree s.problem)
    (timeLimit : Option Extended) (nodeLimit : Option Int) {gap : Rat}
    (hgap : s.config.gapTolerance = .finite gap) (hnonneg : 0 ≤ gap) {place : Place Extended}
    (hreached : Reaches s.problem (Solver.limited s.config timeLimit nodeLimit) (outset s) place
      run) :
    (∀ {place' run' k},
      (advance s.problem (Solver.limited s.config timeLimit nodeLimit) place).Gives
        run place' run' →
      (run.tree.node k).status ≠ .prunedBound → (run'.tree.node k).status = .prunedBound →
        ∃ h answer, place = .closing h answer ∧
          ((k = h ∧ run'.tree.stats.upper - .finite gap ≤ (run'.tree.node k).lowerBound) ∨
            (k ≠ h ∧ run'.tree.incumbent = some h ∧ (run.tree.node k).status = .pending ∧
              run'.tree.stats.upper - .finite (1 / 1000000) ≤ (run'.tree.node k).lowerBound))) ∧
    ((∀ {w w' z values}, s.problem.solve.Gives w (.solved z values) w' → z ≠ .undefined) →
      ∀ k, (run.tree.node k).status = .prunedBound →
        run.tree.stats.upper - .finite (max gap (1 / 1000000)) ≤ (run.tree.node k).lowerBound) := by
  refine ⟨fun next hbefore hpruned => ?_, fun hnumber => ?_⟩
  · obtain ⟨h, answer, rfl, hcloses⟩ := pruned_of_moves hafter (moves_of_gives next) hbefore hpruned
    obtain ⟨visited, hl⟩ := hreached.ledger hafter
    refine ⟨h, answer, rfl, ?_⟩
    rw [← hgap]
    exact hcloses.pruned hl.hand_lt hbefore hpruned
  · exact (hreached.guarded hafter hnumber hgap hnonneg (le_max_left _ _) (le_max_right _ _)).pruned

theorem number_script {rules : List (ScriptRule Extended)}
    (hrules : ∀ rule ∈ rules, ∀ z values, rule.answer = .solved z values → z ≠ .undefined)
    (acceptance : Acceptance) (strategy : Script.Strategy Extended) {w w' : Stage Extended}
    {z : Extended} {values : EdgeValues Extended}
    (hgives : (Script.problem ⟨rules, acceptance, []⟩ strategy).solve.Gives w
      (.solved z values) w') : z ≠ .undefined := by
  simp only [Script.problem, Action.Gives, Action.runOn, Script.solve] at hgives
  split at hgives
  · cases (Prod.mk.inj hgives).1
  · rename_i rule hrule
    have hanswer : Script.answer rule.answer = .ok (.solved z values) := (Prod.mk.inj hgives).1
    refine hrules rule (List.mem_of_find?_eq_some hrule) z values ?_
    cases hcase : rule.answer with
    | fails | infeasible =>
        rw [hcase] at hanswer
        cases hanswer
    | solved z' values' =>
        rw [hcase] at hanswer
        cases hanswer
        rfl

/-- A relaxation that is fractional at the root and has the tour, half a millionth above the bound
of the root, where the first edge is fixed. -/
def narrowRules : List (ScriptRule Extended) :=
  [⟨[[.int 0, .int 1]], [], 0, 0, .finite 1, .solved (.finite 10)
      ⟨[([.int 0, .int 1], .finite 1), ([.int 1, .int 2], .finite 1),
        ([.int 0, .int 2], .finite 1)]⟩⟩,
    ⟨[], [], 0, 0, .finite 1, .solved (.finite (10 - 1 / 2000000))
      ⟨[([.int 0, .int 1], .finite (1 / 2)), ([.int 1, .int 2], .finite 1),
        ([.int 0, .int 2], .finite 1)]⟩⟩]

def narrowSolver : Solver Extended Move (Stage Extended) where
  problem := Script.problem ⟨narrowRules, .dedupe, []⟩ (.edges EdgeBranching.standard)
  config := { SearchConfig.standard with gapTolerance := .finite 0, maxCutRounds := 0 }
  queue := OpenQueue.empty .bestFirst
  separator := Separator.ofGraph (Graph.build .simple []
    [(.int 0, .int 1, none), (.int 1, .int 2, none), (.int 0, .int 2, none)]) .dinitz
  listeners := []
  world := Stage.initial Watch.empty
  solution := none

/-- When the first child has become the incumbent, the second one is within a millionth of it. -/
theorem pruned_within_tolerances_narrow :
    ∃ run, Reaches narrowSolver.problem narrowSolver.config (outset narrowSolver) (.closed 1) run ∧
      (run.tree.node 2).status = .prunedBound ∧
      run.tree.stats.upper - .finite (max 0 (1 / 1000000)) ≤ (run.tree.node 2).lowerBound := by
  obtain ⟨place, run, hreached, hspot, hstatus⟩ : ∃ place run, Reaches narrowSolver.problem
      (Solver.limited narrowSolver.config none none) (outset narrowSolver) place run ∧
      place.spot = .closed 1 ∧ (run.tree.node 2).status = .prunedBound :=
    exists_reaches (n := 9) (by decide +kernel)
  obtain rfl := Place.eq_closed hspot
  have hnumber : ∀ {w w' z values},
      narrowSolver.problem.solve.Gives w (.solved z values) w' → z ≠ .undefined := by
    refine number_script (fun rule hrule z values hanswer => ?_) .dedupe _
    simp only [narrowRules, List.mem_cons, List.not_mem_nil, or_false] at hrule
    rcases hrule with rfl | rfl <;> cases hanswer <;> simp
  exact ⟨run, hreached, hstatus, (pruned_within_tolerances narrowSolver (keepsTree_script _ _ _)
    none none rfl (le_refl 0) hreached).2 hnumber 2 hstatus⟩

/-- The second child is pruned although its bound is below the upper bound by more than the gap of
the settings. -/
theorem bulk_pruning_exceeds_gap :
    ∃ answer run run',
      Reaches narrowSolver.problem narrowSolver.config (outset narrowSolver) (.closing 1 answer)
        run ∧
      (advance narrowSolver.problem narrowSolver.config (.closing 1 answer)).Gives run (.closed 1)
        run' ∧
      (run.tree.node 2).status = .pending ∧ (run'.tree.node 2).status = .prunedBound ∧
      ¬run'.tree.stats.upper - narrowSolver.config.gapTolerance ≤
        (run'.tree.node 2).lowerBound := by
  have hclosed : (orbit narrowSolver.problem narrowSolver.config (outset narrowSolver) 9).any
      (fun y => decide (y.1.spot = .closed 1 ∧ (y.2.tree.node 2).status = .prunedBound ∧
        ¬y.2.tree.stats.upper - narrowSolver.config.gapTolerance ≤
          (y.2.tree.node 2).lowerBound)) = true := by decide +kernel
  have hclosing : (orbit narrowSolver.problem narrowSolver.config (outset narrowSolver) 8).any
      (fun x => decide (x.1.spot = .closing 1 ∧ (x.2.tree.node 2).status = .pending)) = true := by
    decide +kernel
  obtain ⟨⟨place', run'⟩, hy, hafter⟩ := (Option.any_eq_true _ _).mp hclosed
  obtain ⟨⟨place, run⟩, hx, hnext⟩ := exists_of_orbit_succ hy
  rw [hx] at hclosing
  obtain ⟨hspot, hpending⟩ := of_decide_eq_true hclosing
  obtain ⟨hspot', hpruned, hbelow⟩ := of_decide_eq_true hafter
  obtain ⟨answer, rfl⟩ := Place.eq_closing hspot
  obtain rfl := Place.eq_closed hspot'
  exact ⟨answer, run, run', reaches_of_mem_orbit hx, hnext, hpending, hpruned, hbelow⟩

end Search

end TourSearch
