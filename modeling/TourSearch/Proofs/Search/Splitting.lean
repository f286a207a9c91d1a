import TourSearch.Proofs.Branching.Choice
import TourSearch.Proofs.Search.Exhaustion
import TourSearch.Proofs.Search.Failures
import Mathlib

/-!
Every node with fractional values is split. The integrality test and edge branching compare the same
fractions with the same tolerance, so that there is a candidate just when the test fails. A search
that branches on edges with the tolerance of its settings hence never gives a node up, unless what
is done after a node does so (`integrality_agrees_with_branching`).
-/

namespace TourSearch

open Numeric

namespace Tree

variable {α μ : Type} [Scalar α] {t t₁ t₂ t₃ : Tree α μ} {h : Handle}

/-! ### Trees between which no node is given up -/

def Spares (t t' : Tree α μ) : Prop :=
  ∀ k, (t'.node k).status = .fathomed → (t.node k).status = .fathomed

theorem Spares.refl (t : Tree α μ) : t.Spares t := fun _ => id

theorem Spares.trans (h₁ : t₁.Spares t₂) (h₂ : t₂.Spares t₃) : t₁.Spares t₃ :=
  fun k hk => h₁ k (h₂ k hk)

theorem spares_modify {f : Node α μ → Node α μ}
    (hf : (f (t.node h)).status = .fathomed → (t.node h).status = .fathomed) :
    t.Spares (t.modify h f) := by
  intro k hk
  rw [node_modify] at hk
  split at hk
  · rename_i hself
    rw [hself.1]
    exact hf hk
  · exact hk

theorem spares_markProcessed {status : NodeStatus} (hstatus : status ≠ .fathomed) :
    t.Spares (t.markProcessed h status) :=
  spares_modify (f := fun n => { n with status }) fun hfathomed => absurd hfathomed hstatus

theorem spares_createChild (parent : Handle) (d : Decision μ) :
    t.Spares (t.createChild parent d).2 := by
  have hregister : t.Spares (t.register (childOf (t.node parent) d)).2 := by
    intro k hk
    rw [node_register] at hk
    split at hk
    · cases hk
    · exact hk
  exact hregister.trans (spares_modify id)

theorem spares_createChildren (parent : Handle) (ds : List (Decision μ)) :
    t.Spares (t.createChildren parent ds).2 := by
  have heach : ∀ t : Tree α μ, t.Spares (t.createEach parent ds).2 := by
    induction ds with
    | nil => exact Spares.refl
    | cons d ds ih => exact fun t => (spares_createChild parent d).trans (ih _)
  exact (heach t).trans (spares_markProcessed (by simp))

theorem Pruned.spares {t t' : Tree Extended μ} (hp : Pruned t t') : t.Spares t' := by
  intro k hk
  rcases hp.nodes k with hsame | ⟨-, -, hpruned⟩
  · exact hsame ▸ hk
  · rw [hpruned] at hk
    cases hk

end Tree

namespace Search

variable {μ σ β γ : Type} {config : SearchConfig Extended} {h : Handle}

theorem spares_accepted (t : Tree Extended μ) (values : EdgeValues Extended) :
    t.Spares (accepted t h values) := by
  have hinteger : NodeStatus.integer ≠ .fathomed := by simp
  exact (Tree.spares_modify (f := fun n => { n with isInteger := true, solution := values })
    id).trans (Tree.spares_markProcessed hinteger)

theorem spares_solvedTree (t : Tree Extended μ) (z : Extended) : t.Spares (solvedTree t h z) :=
  Tree.spares_modify id

/-! ### Steps that give no node up -/

def Spares (x : Action (Run Extended μ σ) β) : Prop :=
  ∀ run : Run Extended μ σ, run.tree.Spares (x.runOn run).2.tree

theorem spares_of_leaves {x : Action (Run Extended μ σ) β} (hx : x.Leaves (·.tree)) :
    Spares x := by
  intro run
  have hsame : (x.runOn run).2.tree = run.tree := hx run
  exact hsame.symm ▸ Tree.Spares.refl run.tree

theorem Spares.bind {x : Action (Run Extended μ σ) β} {f : β → Action (Run Extended μ σ) γ}
    (hx : Spares x) (hf : ∀ b, Spares (f b)) : Spares (x >>= f) := by
  intro run
  have hfirst := hx run
  rw [Action.runOn_bind]
  rcases hrun : x.runOn run with ⟨_ | b, run₁⟩ <;> rw [hrun] at hfirst
  · exact hfirst
  · exact hfirst.trans (hf b run₁)

theorem Spares.of_gives {x : Action (Run Extended μ σ) β} (hx : Spares x) {b : β}
    {run run' : Run Extended μ σ} (hgives : x.Gives run b run') : run.tree.Spares run'.tree := by
  have hrun := hx run
  rwa [hgives] at hrun

theorem spares_takeUp (p : Problem Extended μ σ) : Spares (takeUp p config h) := by
  have hmodify : Spares (modify fun run : Run Extended μ σ => { run with
      explored := run.explored + 1
      tree := run.tree.modify h fun n => { n with status := .processing } }) :=
    fun run => Tree.spares_modify (f := fun n => { n with status := .processing }) nofun
  exact hmodify.bind fun _ => spares_of_leaves (leaves_report fun _ _ _ _ _ _ => rfl)

theorem spares_goTo (p : Problem Extended μ σ) : Spares (Run.goTo p h) :=
  spares_of_leaves (leaves_goTo fun _ _ _ => rfl)

theorem spares_solveWithCuts (p : Problem Extended μ σ) (id rounds : Int) (steps : Nat) :
    Spares (Run.solveWithCuts p config id steps rounds) := by
  induction steps generalizing rounds with
  | zero => exact spares_of_leaves (Action.leaves_throw _)
  | succ steps ih =>
      rw [solveWithCuts_succ]
      refine (spares_of_leaves tree_cutRound).bind fun answer => ?_
      cases answer with
      | some answer => exact spares_of_leaves (Action.leaves_pure _)
      | none => exact ih (rounds + 1)

section Branching

variable {p : Problem Extended Move σ} {run run' : Run Extended Move σ}

/-- When a node cannot be closed otherwise its values are fractional, and there is a candidate. -/
theorem Closes.spares (hbranching : BranchesOnEdges p config.integralityTolerance)
    {answer : Answer Extended} (hcloses : Closes p config h run answer run') :
    run.tree.Spares run'.tree := by
  cases hcloses with
  | infeasible => exact Tree.spares_markProcessed (by simp)
  | hopeless => exact (spares_solvedTree _ _).trans (Tree.spares_markProcessed (by simp))
  | incumbent =>
      exact (spares_solvedTree _ _).trans
        ((spares_accepted _ _).trans (Tree.pruned_pruneByBound _).spares)
  | givenUp _ fractional proposed none =>
      obtain ⟨-, c, hbest, -⟩ := splits_of_fractional hbranching fractional proposed
      rw [none] at hbest
      cases hbest
  | branched => exact (spares_solvedTree _ _).trans (Tree.spares_createChildren _ _)

theorem spares_close (hbranching : BranchesOnEdges p config.integralityTolerance)
    (answer : Answer Extended) : Spares (Run.close p config h answer) := by
  intro run
  rcases Action.gives_or_fails (Run.close p config h answer) run with
    ⟨_, run', hgives⟩ | ⟨fault, run', hfails⟩
  · rw [hgives]
    exact (closes_of_gives hgives).spares hbranching
  · obtain ⟨z, -, htree, -⟩ := fails_close hfails
    rw [hfails, htree]
    exact spares_solvedTree _ z

/-- Apart from what is done after a node, no step gives a node up. -/
theorem spares_advance (hbranching : BranchesOnEdges p config.integralityTolerance)
    {place : Place Extended} (hplace : ∀ h, place ≠ .closed h) :
    Spares (advance p config place) := by
  have hpure : ∀ place : Place Extended,
      Spares (pure place : Action (Run Extended Move σ) (Place Extended)) :=
    fun place => spares_of_leaves (Action.leaves_pure place)
  cases place with
  | between =>
      refine (spares_of_leaves Action.leaves_get).bind fun run => ?_
      split
      · exact hpure _
      · refine Spares.bind (spares_of_leaves fun _ => rfl) fun next => ?_
        cases next with
        | none => exact hpure _
        | some h => exact (spares_takeUp p).bind fun _ => hpure _
  | moving h => exact (spares_goTo p).bind fun _ => hpure _
  | solving h rounds =>
      refine (spares_of_leaves Action.leaves_get).bind fun run => ?_
      refine (spares_of_leaves tree_cutRound).bind fun answer => ?_
      cases answer with
      | none => exact hpure _
      | some answer => exact hpure _
  | closing h answer => exact (spares_close hbranching answer).bind fun _ => hpure _
  | closed h => exact absurd rfl (hplace h)
  | ended => exact hpure _

/-! ### Searches that give no node up -/

def SparesNodes (p : Problem Extended μ σ) : Prop :=
  ∀ h t w, Tree.Spares t ((p.afterNode h).runOn (t, w)).2.1

theorem SparesNodes.afterNode {p : Problem Extended μ σ} (hafter : SparesNodes p) :
    Spares (Run.onTreeAndWorld (p.afterNode h) : Action (Run Extended μ σ) Unit) :=
  fun run => hafter h run.tree run.world

theorem Reaches.spares (hbranching : BranchesOnEdges p config.integralityTolerance)
    (hafter : SparesNodes p) {start : Run Extended Move σ} {place : Place Extended}
    (hreached : Reaches p config start place run) : start.tree.Spares run.tree := by
  induction hreached with
  | start => exact Tree.Spares.refl _
  | @step place place' run run' _ next ih =>
      refine ih.trans ?_
      by_cases hplace : ∃ h, place = .closed h
      · obtain ⟨h, rfl⟩ := hplace
        exact (hafter.afterNode.bind fun _ => spares_of_leaves (Action.leaves_pure _)).of_gives next
      · exact (spares_advance hbranching (not_exists.mp hplace)).of_gives next

theorem spares_explore (hbranching : BranchesOnEdges p config.integralityTolerance)
    (hafter : SparesNodes p) (steps : Nat) : Spares (Run.explore p config steps h) := by
  rw [explore_eq]
  refine (spares_takeUp p).bind fun _ => (spares_goTo p).bind fun _ => ?_
  refine (spares_of_leaves Action.leaves_get).bind fun run => ?_
  refine (spares_solveWithCuts p _ _ _).bind fun answer => ?_
  exact (spares_close hbranching answer).bind fun _ => hafter.afterNode

theorem spares_search (hbranching : BranchesOnEdges p config.integralityTolerance)
    (hafter : SparesNodes p) (steps : Nat) : Spares (Run.search p config steps) := by
  have hall : ∀ count, Spares (Run.exploreAll p config steps count) := by
    intro count
    induction count with
    | zero => exact spares_of_leaves (Action.leaves_throw _)
    | succ count ih =>
        refine (spares_of_leaves Action.leaves_get).bind fun run => ?_
        split
        · exact spares_of_leaves (Action.leaves_pure _)
        · refine Spares.bind (spares_of_leaves fun _ => rfl) fun next => ?_
          cases next with
          | none => exact spares_of_leaves (Action.leaves_pure _)
          | some h => exact (spares_explore hbranching hafter steps).bind fun _ => ih
  exact (hall steps).bind fun _ run => Tree.Spares.refl run.tree

theorem spares_complete (hbranching : BranchesOnEdges p config.integralityTolerance)
    (hafter : SparesNodes p) (steps : Nat) (run : Run Extended Move σ) :
    run.tree.Spares (run.complete p config steps).2.tree := by
  have hsearch := spares_search hbranching hafter steps run
  have hhome : (run.complete p config steps).2.tree =
      ((Run.search p config steps).runOn run).2.tree :=
    leaves_goHome (p := p) (v := (·.tree)) (fun _ _ _ => rfl) _
  exact hhome.symm ▸ hsearch

end Branching

theorem status_outset (s : Solver Extended μ σ) (k : Handle) :
    ((outset s).tree.node k).status ≠ .fathomed := by
  rw [show (outset s).tree = Tree.initial from rfl, Tree.node_initial]
  nofun

/-- The integrality test and edge branching agree. For finite values, a tolerance that is a number
and at least one candidate, the test fails just when there is a best candidate, and this one splits
the first of the edges whose fraction lies between the tolerances and closest to one half: one child
must use it, the other may not. A search that branches on edges with the tolerance of its settings
therefore gives up no node: none of its own steps does, and if neither does what comes after a node,
no node is given up wherever the search comes to and however it ends. -/
theorem integrality_agrees_with_branching :
    (∀ (b : EdgeBranching Extended) (id : Nat) (values : EdgeValues Extended),
      b.tolerance ≠ .undefined → 1 ≤ b.maxCandidates → values.Finite →
      ∃ integral best, values.isIntegral b.tolerance = .ok integral ∧
        (b.candidates id values).map Candidate.best? = .ok best ∧
        (integral = false ↔ best ≠ none) ∧
        ∀ c, best = some c → ∃ entry, FirstCentral b.tolerance values.entries entry ∧
          c.subject = some entry ∧
          c.decisions = [⟨2 * id, .fix entry.1⟩, ⟨2 * id + 1, .remove entry.1⟩]) ∧
    ∀ {σ : Type} (s : Solver Extended Move σ),
      BranchesOnEdges s.problem s.config.integralityTolerance →
      ∀ (timeLimit : Option Extended) (nodeLimit : Option Int),
        (∀ place, (∀ h, place ≠ .closed h) →
          Spares (advance s.problem (Solver.limited s.config timeLimit nodeLimit) place)) ∧
        (SparesNodes s.problem →
          (∀ place run, Reaches s.problem (Solver.limited s.config timeLimit nodeLimit) (outset s)
            place run → ∀ k, (run.tree.node k).status ≠ .fathomed) ∧
          ∀ steps k, ((s.solve steps timeLimit nodeLimit).2.1.tree.node k).status ≠ .fathomed) := by
  refine ⟨fun b id values hnumber hcount hfinite => ?_, fun s hbranching timeLimit nodeLimit => ?_⟩
  · obtain ⟨best, hbest, hnone, hfirst⟩ := EdgeBranching.best?_candidates hnumber hcount hfinite
    refine ⟨_, best, integralEntries_eq hfinite, hbest, ?_, fun c hc => ?_⟩
    · rw [Ne, hnone, ← Bool.not_eq_true, List.all_eq_true]
      simp only [Bool.not_eq_true', decide_eq_false_iff_not]
    · obtain ⟨entry, hentry, rfl⟩ := hfirst c hc
      exact ⟨entry, hentry, rfl, rfl⟩
  · have hlimited : BranchesOnEdges s.problem
        (Solver.limited s.config timeLimit nodeLimit).integralityTolerance := hbranching
    refine ⟨fun place hplace => spares_advance hlimited hplace, fun hafter =>
      ⟨fun place run hreached k hk => ?_, fun steps k hk => ?_⟩⟩
    · exact status_outset s k (hreached.spares hlimited hafter k hk)
    · exact status_outset s k (spares_complete hlimited hafter steps (outset s) k hk)

/-- Two values whose fractions are equally close to one half, with a negative and a whole one. -/
def tiedValues : EdgeValues Extended :=
  ⟨[([.int 0, .int 3], .finite (-1 / 2)), ([.int 0, .int 1], .finite 1),
    ([.int 1, .int 2], .finite (1 / 4)), ([.int 2, .int 3], .finite (7 / 4))]⟩

/-- Of the two the first is split, also when only one candidate is kept; and a search that branches
its root gives up no node. -/
theorem integrality_agrees_with_branching_tied :
    (∃ c, tiedValues.isIntegral (.finite (1 / 1000)) = .ok false ∧
      ((⟨.finite (1 / 1000), 1⟩ : EdgeBranching Extended).candidates 3 tiedValues).map
        Candidate.best? = .ok (some c) ∧
      c.decisions = [⟨6, .fix [.int 1, .int 2]⟩, ⟨7, .remove [.int 1, .int 2]⟩]) ∧
    ∀ k, (((splitSolver (.edges EdgeBranching.standard)).solve 10 none none).2.1.tree.node
      k).status ≠ .fathomed := by
  have hfinite : tiedValues.Finite := by
    simp [EdgeValues.Finite, tiedValues]
  have hcentral : FirstCentral (.finite (1 / 1000)) tiedValues.entries
      ([.int 1, .int 2], .finite (1 / 4)) :=
    ⟨by decide +kernel, tiedValues.entries.take 2, tiedValues.entries.drop 3, rfl,
      by decide +kernel, by decide +kernel⟩
  obtain ⟨integral, best, hintegral, hbest, hiff, hfirst⟩ := integrality_agrees_with_branching.1
    ⟨.finite (1 / 1000), 1⟩ 3 tiedValues (by simp) (by decide) hfinite
  refine ⟨?_, ?_⟩
  · have hfalse : tiedValues.isIntegral (.finite (1 / 1000)) = .ok false := by decide +kernel
    obtain rfl : integral = false := Except.ok.inj (hintegral.symm.trans hfalse)
    obtain ⟨c, rfl⟩ := Option.ne_none_iff_exists'.mp (hiff.mp rfl)
    obtain ⟨entry, hentry, -, hdecisions⟩ := hfirst c rfl
    obtain rfl := hentry.unique hcentral
    exact ⟨c, hfalse, hbest, hdecisions⟩
  · have hspares : SparesNodes (splitSolver (.edges EdgeBranching.standard)).problem :=
      fun _ t _ => Tree.Spares.refl t
    exact ((integrality_agrees_with_branching.2 (splitSolver (.edges EdgeBranching.standard))
      (fun _ _ _ => rfl) none none).2 hspares).2 10

end Search

end TourSearch
