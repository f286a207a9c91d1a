import TourSearch.Proofs.Search.Pruning
import Mathlib

/-!
What an exhausted search leaves behind. When no node is open any more the search claims that its
incumbent is optimal, or that there is no solution. Every node without children is then infeasible,
pruned by bound or integral, except for those that the way to branch has left unsplit
(`exhausted_leaves`). The claim is made for those searches as well (`verdict_over_abandoned_root`).
-/

namespace TourSearch

open Numeric

namespace Search

variable {μ σ : Type} {p : Problem Extended μ σ} {config : SearchConfig Extended}
  {start run run' : Run Extended μ σ} {h k : Nat}

/-- When the search came to close the node, its values were fractional and could have improved the
upper bound, but it got no child. -/
def Abandoned (p : Problem Extended μ σ) (config : SearchConfig Extended)
    (start : Run Extended μ σ) (h : Handle) : Prop :=
  ∃ answer run, Reaches p config start (.closing h answer) run ∧ Unsplit p config h run answer

def Explained (p : Problem Extended μ σ) (config : SearchConfig Extended)
    (start run : Run Extended μ σ) : Prop :=
  ∀ k, ((run.tree.node k).status = .fathomed ∨
    ((run.tree.node k).status = .branched ∧ (run.tree.node k).children = [])) →
      Abandoned p config start k

theorem Explained.congr (he : Explained p config start run) (htree : run'.tree = run.tree) :
    Explained p config start run' := by
  rw [Explained, htree]
  exact he

theorem Explained.take (he : Explained p config start run)
    (htree : run'.tree = run.tree.modify h fun n => { n with status := .processing }) :
    Explained p config start run' := by
  intro k hk
  rw [htree, Tree.node_modify] at hk
  split at hk
  · simp at hk
  · exact he k hk

theorem Explained.close (he : Explained p config start run) {answer : Answer Extended}
    (hreached : Reaches p config start (.closing h answer) run)
    (hcloses : Closes p config h run answer run') (hlt : h < run.tree.records.size) :
    Explained p config start run' := by
  intro k hk
  by_cases hkh : k = h
  · subst hkh
    cases hcloses.verdict hlt with
    | infeasible status | bound status | integer status => simp [status] at hk
    | fathomed _ unsplit => exact ⟨answer, run, hreached, unsplit⟩
    | branched status children =>
        simp only [status, reduceCtorEq, true_and, false_or] at hk
        exact ⟨answer, run, hreached, children.resolve_left (not_not.mpr hk)⟩
  · rcases hcloses.other hlt hkh with hsame | ⟨-, -, -, hpruned⟩ | ⟨-, hnew⟩
    · exact he k (hsame ▸ hk)
    · simp [hpruned] at hk
    · simp [hnew] at hk

theorem Reaches.explained {s : Solver Extended μ σ} {place : Place Extended}
    (hreached : Reaches s.problem config (outset s) place run) (hafter : KeepsTree s.problem) :
    Explained s.problem config (outset s) run := by
  induction hreached with
  | start =>
      intro k hk
      rw [show (outset s).tree = Tree.initial from rfl, Tree.node_initial] at hk
      simp [Node.blank] at hk
  | step before next ih =>
      rcases (moves_of_gives next).tree_cases hafter with
        htree | ⟨h, htree⟩ | ⟨h, answer, rfl, hcloses⟩
      · exact ih.congr htree
      · exact ih.take htree
      · obtain ⟨visited, hl⟩ := before.ledger hafter
        exact ih.close before hcloses hl.hand_lt

/-- The way to branch splits all fractional values. -/
def AlwaysSplits (p : Problem Extended μ σ) (tolerance : Extended) : Prop :=
  ∀ {n values cs w w'}, values.isIntegral tolerance = .ok false →
    (p.candidates n values).Gives w cs w' → ∃ c, Candidate.best? cs = some c ∧ c.decisions ≠ []

theorem AlwaysSplits.not_abandoned (hsplits : AlwaysSplits p config.integralityTolerance) :
    ¬Abandoned p config start h := by
  rintro ⟨_ | ⟨z, values⟩, run, -, hunsplit⟩
  · exact hunsplit
  · obtain ⟨-, hfractional, cs, world, hproposed, hnone⟩ := hunsplit
    obtain ⟨c, hbest, hdecisions⟩ := hsplits hfractional hproposed
    exact hdecisions (hnone c hbest)

theorem alwaysSplits_of_edges {p : Problem Extended Move σ} {tolerance : Extended}
    (hbranching : BranchesOnEdges p tolerance) : AlwaysSplits p tolerance := by
  intro n values cs w w' hfractional hproposed
  obtain ⟨-, c, hbest, e, x, -, -, hdecisions⟩ :=
    splits_of_fractional hbranching hfractional hproposed
  exact ⟨c, hbest, by rw [hdecisions]; exact List.cons_ne_nil _ _⟩

/-- No node is open when the queue is empty at the end. -/
theorem Reaches.not_open {s : Solver Extended μ σ}
    (hreached : Reaches s.problem config (outset s) .ended run) (hafter : KeepsTree s.problem)
    (hempty : run.queue.isEmpty = true) (hlt : k < run.tree.records.size) :
    (run.tree.node k).status ≠ .pending ∧ (run.tree.node k).status ≠ .processing := by
  obtain ⟨visited, hl⟩ := hreached.ledger hafter
  have hnone : run.queue.handles = [] := congrArg (List.map _) (OpenQueue.isEmpty_iff.mp hempty)
  refine ⟨fun hpending => ?_, fun hprocessing => ?_⟩
  · have hmem := hl.listed.mem_pending.mpr ⟨hlt, Node.isPending_iff.mpr hpending⟩
    rw [← hl.waiting.mem_iff, hnone] at hmem
    exact List.not_mem_nil hmem
  · exact absurd ((hl.processing k).mp hprocessing) nofun

/-- A search that returns with an empty queue claims that its incumbent is optimal, or that there is
no solution. Every node without children was then closed as infeasible, by bound or as integral,
unless it was abandoned; and none is abandoned if all fractional values are split. -/
theorem exhausted_leaves (s : Solver Extended μ σ) (hafter : KeepsTree s.problem) {steps : Nat}
    {timeLimit : Option Extended} {nodeLimit : Option Int} {solution : Solution Extended}
    {s' : Solver Extended μ σ}
    (hsolve : s.solve steps timeLimit nodeLimit = (.ok solution, run, s'))
    (hempty : run.queue.isEmpty = true) :
    (solution.status = .optimal ∨ solution.status = .infeasible) ∧
    (∀ k < run.tree.records.size, (run.tree.node k).children = [] →
      (run.tree.node k).status ∈ [.prunedInfeasible, .prunedBound, .integer] ∨
        ((run.tree.node k).status ∈ [.fathomed, .branched] ∧
          Abandoned s.problem (Solver.limited s.config timeLimit nodeLimit) (outset s) k)) ∧
    (AlwaysSplits s.problem s.config.integralityTolerance → ∀ k < run.tree.records.size,
      (run.tree.node k).children = [] →
        (run.tree.node k).status ∈ [.prunedInfeasible, .prunedBound, .integer]) := by
  simp only [Solver.solve, Prod.mk.injEq] at hsolve
  obtain ⟨run₁, hended, hhome, rfl⟩ := Reaches.complete (Prod.ext hsolve.1 hsolve.2.1)
  have hrecords := (leaves_goHome (v := (·.tree.records)) fun _ _ _ => rfl).of_gives hhome
  have hqueue := (leaves_goHome (v := (·.queue)) fun _ _ _ => rfl).of_gives hhome
  have hnode : ∀ k, run.tree.node k = run₁.tree.node k := fun k => by
    rw [Tree.node, Tree.node, hrecords]
    rfl
  have hleaves : ∀ k < run.tree.records.size, (run.tree.node k).children = [] →
      (run.tree.node k).status ∈ [.prunedInfeasible, .prunedBound, .integer] ∨
        ((run.tree.node k).status ∈ [.fathomed, .branched] ∧
          Abandoned s.problem (Solver.limited s.config timeLimit nodeLimit) (outset s) k) := by
    intro k hlt hleaf
    rw [hrecords] at hlt
    rw [hnode] at hleaf ⊢
    have hexplained := hended.explained hafter k
    obtain ⟨hpending, hprocessing⟩ := hended.not_open hafter (hqueue ▸ hempty) hlt
    cases hstatus : (run₁.tree.node k).status with
    | pending => exact absurd hstatus hpending
    | processing => exact absurd hstatus hprocessing
    | prunedInfeasible | prunedBound | integer => simp
    | fathomed => exact Or.inr ⟨by simp, hexplained (Or.inl hstatus)⟩
    | branched => exact Or.inr ⟨by simp, hexplained (Or.inr ⟨hstatus, hleaf⟩)⟩
  refine ⟨?_, hleaves, fun hsplits k hlt hleaf => ?_⟩
  · show run.finalStatus _ _ = .optimal ∨ run.finalStatus _ _ = .infeasible
    rw [Run.finalStatus, hempty, Bool.true_or, if_pos rfl]
    split
    · exact Or.inl rfl
    · exact Or.inr rfl
  · have hnone : ¬Abandoned s.problem (Solver.limited s.config timeLimit nodeLimit) (outset s) k :=
      AlwaysSplits.not_abandoned hsplits
    exact (hleaves k hlt hleaf).resolve_right fun habandoned => hnone habandoned.2

def splitRules : List (ScriptRule Extended) :=
  [⟨[[.int 0, .int 1]], [], 0, 0, .finite 1, .solved (.finite 3)
      ⟨[([.int 0, .int 1], .finite 1), ([.int 1, .int 2], .finite 1),
        ([.int 0, .int 2], .finite 1)]⟩⟩,
    ⟨[], [[.int 0, .int 1]], 0, 0, .finite 1, .infeasible⟩,
    ⟨[], [], 0, 0, .finite 1, .solved (.finite 2)
      ⟨[([.int 0, .int 1], .finite (1 / 2)), ([.int 1, .int 2], .finite 1),
        ([.int 0, .int 2], .finite 1)]⟩⟩]

def splitSolver (strategy : Script.Strategy Extended) : Solver Extended Move (Stage Extended) :=
  { narrowSolver with problem := Script.problem ⟨splitRules, .dedupe, []⟩ strategy }

/-- The second child is infeasible and the first one integral; the root has children. -/
theorem exhausted_leaves_split :
    ∃ solution run s', (splitSolver (.edges EdgeBranching.standard)).solve 10 none none =
        (.ok solution, run, s') ∧ run.queue.isEmpty = true ∧ solution.status = .optimal ∧
      ∀ k < run.tree.records.size, (run.tree.node k).children = [] →
        (run.tree.node k).status ∈ [.prunedInfeasible, .prunedBound, .integer] := by
  have hends : ((splitSolver (.edges EdgeBranching.standard)).solve 10 none none).1.toOption.map
      (·.status) = some .optimal ∧
      ((splitSolver (.edges EdgeBranching.standard)).solve 10 none none).2.1.queue.isEmpty =
        true := by
    decide +kernel
  rcases hsolve : (splitSolver (.edges EdgeBranching.standard)).solve 10 none none with
    ⟨_ | solution, run, s'⟩
  · simp [hsolve, Except.toOption] at hends
  · rw [hsolve] at hends
    refine ⟨solution, run, s', rfl, hends.2, by simpa [Except.toOption] using hends.1, ?_⟩
    exact (exhausted_leaves _ (keepsTree_script _ _ _) hsolve hends.2).2.2
      (alwaysSplits_of_edges fun _ _ _ => rfl)

/-- A search that never branches gives up a root with fractional values, and still claims that there
is no solution. -/
theorem verdict_over_abandoned_root :
    ∃ solution run s', (splitSolver .none).solve 10 none none = (.ok solution, run, s') ∧
      solution.status = .infeasible ∧ run.queue.isEmpty = true ∧
      (run.tree.node Tree.root).children = [] ∧ (run.tree.node Tree.root).status = .fathomed ∧
      (run.tree.node Tree.root).lpValue < run.tree.stats.upper := by
  have hends : ((splitSolver .none).solve 10 none none).1.toOption.map (·.status) =
        some .infeasible ∧
      ((splitSolver .none).solve 10 none none).2.1.queue.isEmpty = true ∧
      (((splitSolver .none).solve 10 none none).2.1.tree.node Tree.root).children = [] ∧
      (((splitSolver .none).solve 10 none none).2.1.tree.node Tree.root).status = .fathomed ∧
      (((splitSolver .none).solve 10 none none).2.1.tree.node Tree.root).lpValue <
        ((splitSolver .none).solve 10 none none).2.1.tree.stats.upper := by
    decide +kernel
  rcases hsolve : (splitSolver .none).solve 10 none none with ⟨_ | solution, run, s'⟩
  · simp [hsolve, Except.toOption] at hends
  · rw [hsolve] at hends
    exact ⟨solution, run, s', rfl, by simpa [Except.toOption] using hends.1, hends.2⟩

end Search

end TourSearch
