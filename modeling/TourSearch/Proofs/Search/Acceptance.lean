import TourSearch.Proofs.Lineage
import TourSearch.Proofs.Search.Course
import TourSearch.Proofs.Search.Node
import TourSearch.Proofs.Separation.Scan
import TourSearch.Search.Script
import Mathlib

/-!
Every accepted solution has passed separation. The rounds of cuts can end without a look at the
cuts, or with violated cuts left over; the caller decides again from the answer alone whether a node
becomes the incumbent. The two decisions agree: an answer that ended the rounds because of its bound
makes the node hopeless, and one with cuts left over is fractional. What becomes the incumbent is
therefore integral and without violated cuts (`Clean`), so that every cut is crossed by 2 up to the
precision.
-/

namespace TourSearch

open Numeric

theorem finite_of_isIntegral {values : EdgeValues Extended} {tolerance : Extended}
    (h : values.isIntegral tolerance = .ok true) : values.Finite := by
  obtain ⟨entries⟩ := values
  change integralEntries tolerance entries = .ok true at h
  intro entry hentry
  change entry ∈ entries at hentry
  induction entries with
  | nil => cases hentry
  | cons first rest ih =>
      obtain ⟨e, value⟩ := first
      rw [integralEntries] at h
      obtain ⟨f, hf, h⟩ := except_bind_eq_ok.mp h
      split at h
      · cases h
      · rcases List.mem_cons.mp hentry with rfl | hentry
        · exact finite_of_fraction hf
        · exact ih h hentry

/-- Several cuts are answered without a look at the values only when none are wanted. -/
theorem Separator.several_eq_ok {β : Type} {s : Separator Extended} {values : EdgeValues Extended}
    {maxCuts : Int} {first : β} {visit : Nat → β → Cut Extended → ForInStep β}
    {chosen : β → List (Cut Extended)} {cuts : List (Cut Extended)}
    (h : (s.several values maxCuts first visit chosen).1 = .ok cuts) :
    maxCuts = 0 ∧ cuts = [] ∨ 0 < maxCuts ∧ (s.graph.refresh values).1 = .ok () := by
  by_cases hpos : 0 < maxCuts
  · refine Or.inr ⟨hpos, ?_⟩
    rw [several_of_pos _ _ hpos] at h
    obtain ⟨_, hscan, -⟩ := except_map_eq_ok.mp h
    cases hrefresh : (s.graph.refresh values).1 with
    | error fault =>
        rw [scan_of_error hrefresh] at hscan
        cases hscan
    | ok => rfl
  · unfold several at h
    split at h
    · cases h
    · rw [if_pos (by omega)] at h
      exact Or.inl ⟨by omega, (Except.ok.inj h).symm⟩

theorem Run.refresh_of_separated {config : SearchConfig Extended}
    (hcuts : 1 ≤ config.maxCutsPerRound) {s : Separator Extended} {values : EdgeValues Extended}
    {cuts : List (Cut Extended)} (h : (Run.separated config s values).1 = .ok cuts) :
    (s.graph.refresh values).1 = .ok () := by
  have hpos : config.maxCutsPerRound ≠ 0 := by omega
  unfold Run.separated at h
  split at h
  · obtain ⟨_, hsingle, -⟩ := except_map_eq_ok.mp h
    obtain ⟨_, hrefresh, -⟩ := except_bind_eq_ok.mp hsingle
    exact hrefresh
  all_goals
    obtain ⟨hzero, -⟩ | ⟨-, hrefresh⟩ := Separator.several_eq_ok h
    · exact absurd hzero hpos
    · exact hrefresh

/-- Where cuts are found, some were asked for, except in the mode that takes no notice of how many
are. -/
theorem Run.exists_separated_eq {config : SearchConfig Extended} {separator : Separator Extended}
    {values : EdgeValues Extended} {cuts : List (Cut Extended)} (hcuts : cuts ≠ [])
    (hfound : (Run.separated config separator values).1 = .ok cuts) :
    ∃ config' : SearchConfig Extended, 1 ≤ config'.maxCutsPerRound ∧
      (Run.separated config' separator values).1 = .ok cuts := by
  by_cases hmode : config.cutMode = .single
  · refine ⟨{ config with maxCutsPerRound := 1 }, Int.le_refl 1, ?_⟩
    rw [← hfound, Run.separated, Run.separated, hmode]
  · refine ⟨config, ?_, hfound⟩
    unfold Run.separated at hfound
    split at hfound
    · exact absurd ‹_› hmode
    all_goals
      obtain ⟨-, hnil⟩ | ⟨hpos, -⟩ := Separator.several_eq_ok hfound
      · exact absurd hnil hcuts
      · exact hpos

namespace Search

variable {μ σ : Type} {p : Problem Extended μ σ} {config : SearchConfig Extended}
  {separator : Separator Extended} {start run run' : Run Extended μ σ} {h : Handle}

/-- Integral values for which separation finds no cut. -/
structure Clean (config : SearchConfig Extended) (separator : Separator Extended)
    (values : EdgeValues Extended) : Prop where
  integral : values.isIntegral config.integralityTolerance = .ok true
  uncut : (Run.separated config separator values).1 = .ok []

/-- Clean values cross every cut with 2, up to the precision. -/
theorem Clean.leaving {values : EdgeValues Extended} (hclean : Clean config separator values)
    (hcuts : 1 ≤ config.maxCutsPerRound) {g : Graph} (hg : g.WellFormed)
    (hgraph : separator.graph.IsOf g) {side : VertexSet} (hside : side.IsProper g.vertices) :
    2 - 1 / 1000000 ≤ values.leaving g.kind side := by
  obtain ⟨cuts, hfound, hseparates⟩ := Run.separated_spec hcuts hg hgraph
    (finite_of_isIntegral hclean.integral) (Run.refresh_of_separated hcuts hclean.uncut)
  rw [hclean.uncut] at hfound
  exact hseparates.complete (Except.ok.inj hfound).symm side hside

/-! ### Changes that do not touch the incumbent -/

structure Harmless (t t' : Tree Extended μ) : Prop where
  size_le : t.records.size ≤ t'.records.size
  incumbent_eq : t'.incumbent = t.incumbent
  solution_eq : ∀ k < t.records.size, (t'.node k).solution = (t.node k).solution
  bounded : (∀ k, (t.node k).lowerBound ≠ .undefined) → ∀ k, (t'.node k).lowerBound ≠ .undefined

theorem Harmless.refl (t : Tree Extended μ) : Harmless t t :=
  ⟨Nat.le_refl _, rfl, fun _ _ => rfl, id⟩

theorem Harmless.trans {t₁ t₂ t₃ : Tree Extended μ} (h₁ : Harmless t₁ t₂) (h₂ : Harmless t₂ t₃) :
    Harmless t₁ t₃ :=
  ⟨h₁.size_le.trans h₂.size_le, h₂.incumbent_eq.trans h₁.incumbent_eq,
    fun k hk => (h₂.solution_eq k (hk.trans_le h₁.size_le)).trans (h₁.solution_eq k hk),
    h₂.bounded ∘ h₁.bounded⟩

theorem harmless_modify (t : Tree Extended μ) (h : Handle) {f : Node Extended μ → Node Extended μ}
    (hsolution : ∀ n, (f n).solution = n.solution)
    (hbound : ∀ n, n.lowerBound ≠ .undefined → (f n).lowerBound ≠ .undefined) :
    Harmless t (t.modify h f) := by
  have hnode : ∀ k, (t.modify h f).node k = t.node k ∨ (t.modify h f).node k = f (t.node k) := by
    intro k
    rw [Tree.node_modify]
    split
    · rename_i hk
      exact Or.inr (by rw [hk.1])
    · exact Or.inl rfl
  refine ⟨(t.size_modify h f).ge, rfl, fun k _ => ?_, fun hall k => ?_⟩
  · rcases hnode k with heq | heq <;> rw [heq]
    exact hsolution _
  · rcases hnode k with heq | heq <;> rw [heq]
    · exact hall k
    · exact hbound _ (hall k)

theorem harmless_markProcessed (t : Tree Extended μ) (h : Handle) (status : NodeStatus) :
    Harmless t (t.markProcessed h status) := by
  have hmodify := harmless_modify t h (f := fun n => { n with status }) (fun _ => rfl)
    fun _ hn => hn
  exact ⟨(t.size_markProcessed h status).ge, rfl, hmodify.solution_eq, hmodify.bounded⟩

theorem harmless_solvedTree (t : Tree Extended μ) (h : Handle) (z : Extended) :
    Harmless t (solvedTree t h z) :=
  harmless_modify t h (fun _ => rfl) fun _ hn => larger_ne_undefined hn

theorem harmless_of_pruned {t t' : Tree Extended μ} (hp : Tree.Pruned t t') : Harmless t t' := by
  refine ⟨hp.size_eq.ge, hp.incumbent_eq, fun k _ => ?_, fun hall k => ?_⟩
  · rcases hp.nodes k with heq | ⟨-, -, heq⟩ <;> rw [heq]
  · rcases hp.nodes k with heq | ⟨-, -, heq⟩ <;> rw [heq] <;> exact hall k

theorem harmless_createChildren (t : Tree Extended μ) {parent : Nat}
    (hparent : parent < t.records.size) (ds : List (Decision μ)) :
    Harmless t (t.createChildren parent ds).2 := by
  have hb := Tree.branched_createChildren hparent ds
  refine ⟨by rw [hb.size_eq]; omega, hb.incumbent_eq, fun k hk => ?_, fun hall k => ?_⟩
  · obtain ⟨children, status, hold⟩ := hb.old_node hk
    rw [hold]
  · rcases hb.cases k with ⟨-, -, -, hsame⟩ | ⟨i, d, -, -, hnew⟩ | ⟨-, hblank⟩
    · rw [hsame]
      exact hall k
    · rw [hnew]
      exact hall parent
    · rw [hblank]
      simp [Node.blank]

/-! ### The invariant -/

structure Vouched (config : SearchConfig Extended) (separator : Separator Extended)
    (run : Run Extended μ σ) : Prop where
  known : run.queue.Known run.tree.records.size
  bounded : ∀ k, (run.tree.node k).lowerBound ≠ .undefined
  like : run.separator.Like separator
  incumbent : ∀ k, run.tree.incumbent = some k → k < run.tree.records.size ∧
    (run.tree.node k).solution = run.incumbentValues ∧ Clean config separator run.incumbentValues

/-- An answer whose objective is a number, and which cannot improve the upper bound or has no cuts
left over if it is integral. -/
def Founded (config : SearchConfig Extended) (separator : Separator Extended) (upper : Extended) :
    Answer Extended → Prop
  | .infeasible => True
  | .solved z values => z ≠ .undefined ∧
      (upper - config.gapTolerance ≤ z ∨
        (values.isIntegral config.integralityTolerance = .ok true →
          Clean config separator values))

def Grounded (config : SearchConfig Extended) (separator : Separator Extended) :
    Place Extended → Run Extended μ σ → Prop
  | .moving h, run | .solving h _, run => h < run.tree.records.size
  | .closing h answer, run =>
      h < run.tree.records.size ∧ Founded config separator run.tree.stats.upper answer
  | .between, _ | .closed _, _ | .ended, _ => True

theorem Vouched.harmless (hv : Vouched config separator run) (ht : Harmless run.tree run'.tree)
    (hknown : run'.queue.Known run'.tree.records.size) (hlike : run'.separator.Like separator)
    (hvalues : run'.incumbentValues = run.incumbentValues) : Vouched config separator run' := by
  refine ⟨hknown, ht.bounded hv.bounded, hlike, fun k hk => ?_⟩
  obtain ⟨hlt, hsolution, hclean⟩ := hv.incumbent k (ht.incumbent_eq ▸ hk)
  rw [hvalues]
  exact ⟨hlt.trans_le ht.size_le, (ht.solution_eq k hlt).trans hsolution, hclean⟩

/-- The two tests of the bound agree. -/
theorem hopeless_of_reached (hlt : h < run.tree.records.size)
    (hbounded : (run.tree.node h).lowerBound ≠ .undefined) {z : Extended} (hz : z ≠ .undefined)
    (hreached : run.tree.stats.upper - config.gapTolerance ≤ z) : Hopeless config run.tree h z := by
  rw [Hopeless, solvedTree, Tree.node_modify_self _ hlt, Node.reaches_iff]
  exact Extended.le_trans hreached (le_larger hbounded hz)

theorem Vouched.close (hv : Vouched config separator run) (hlt : h < run.tree.records.size)
    {answer : Answer Extended} (hfounded : Founded config separator run.tree.stats.upper answer)
    (hcloses : Closes p config h run answer run') : Vouched config separator run' := by
  have hsolved := harmless_solvedTree run.tree h
  cases hcloses with
  | infeasible =>
      have ht := harmless_markProcessed run.tree h .prunedInfeasible
      exact hv.harmless ht (hv.known.mono ht.size_le) hv.like rfl
  | @hopeless z _ _ =>
      have ht := (hsolved z).trans (harmless_markProcessed _ h .prunedBound)
      exact hv.harmless ht (hv.known.mono ht.size_le) hv.like rfl
  | @incumbent z values better integral =>
      -- The rounds ended because nothing was violated.
      have hclean : Clean config separator values := by
        rcases hfounded.2 with hreached | hclean
        · exact absurd (hopeless_of_reached hlt (hv.bounded h) hfounded.1 hreached) better
        · exact hclean integral
      have hlt' : h < (solvedTree run.tree h z).records.size := hlt.trans_le (hsolved z).size_le
      have hpruned := Tree.pruned_pruneByBound (accepted (solvedTree run.tree h z) h values)
      have hsize : (accepted (solvedTree run.tree h z) h values).records.size =
          (solvedTree run.tree h z).records.size :=
        (Tree.size_markProcessed _ _ _).trans (Tree.size_modify _ _ _)
      have hself := node_accepted_self hlt' values
      refine ⟨?_, (harmless_of_pruned hpruned).bounded fun k => ?_, hv.like, fun k hk => ?_⟩
      · refine OpenQueue.Known.prune (hv.known.mono ?_)
        rw [hpruned.size_eq, hsize]
        exact (hsolved z).size_le
      · by_cases hkh : k = h
        · rw [hkh, hself]
          exact (hsolved z).bounded hv.bounded h
        · rw [node_accepted_of_ne hkh]
          exact (hsolved z).bounded hv.bounded k
      · rw [hpruned.incumbent_eq] at hk
        obtain rfl : h = k := Option.some.inj hk
        refine ⟨by rw [hpruned.size_eq, hsize]; exact hlt', ?_, hclean⟩
        rw [(harmless_of_pruned hpruned).solution_eq h (by rw [hsize]; exact hlt'), hself]
  | @givenUp z _ _ _ _ _ _ _ =>
      have ht := (hsolved z).trans (harmless_markProcessed _ h .fathomed)
      exact hv.harmless ht (hv.known.mono ht.size_le) hv.like rfl
  | @branched z _ _ c _ _ _ _ _ =>
      have hlt' := hlt.trans_le (hsolved z).size_le
      have ht := (hsolved z).trans (harmless_createChildren _ hlt' c.decisions)
      exact hv.harmless ht ((hv.known.mono ht.size_le).addAll fun k hk =>
        Tree.mem_createChildren hlt' hk) hv.like rfl

/-- The answer that ends the rounds is founded. -/
theorem Rounds.founded (hnumber : ∀ {w w' z values}, p.solve.Gives w (.solved z values) w' →
      z ≠ .undefined) (hlike : run.separator.Like separator) {rounds : Int}
    {answer : Option (Answer Extended)} (hrounds : Rounds p config rounds run run' answer) :
    ∀ a ∈ answer, Founded config separator run.tree.stats.upper a := by
  intro a ha
  cases hrounds with
  | infeasible _ =>
      obtain rfl := Option.mem_some_iff.mp ha
      trivial
  | hopeless solved reached =>
      obtain rfl := Option.mem_some_iff.mp ha
      exact ⟨hnumber solved, Or.inl reached⟩
  | uncut solved found =>
      obtain rfl := Option.mem_some_iff.mp ha
      rw [Run.separated_congr config hlike] at found
      exact ⟨hnumber solved, Or.inr fun hintegral => ⟨hintegral, found⟩⟩
  | last solved _ fractional =>
      -- Cuts may be left over here, but only fractional values run out of rounds.
      obtain rfl := Option.mem_some_iff.mp ha
      refine ⟨hnumber solved, Or.inr fun hintegral => ?_⟩
      rw [fractional] at hintegral
      cases hintegral
  | again _ _ _ _ _ => cases ha

def SparesIncumbent (p : Problem Extended μ σ) : Prop :=
  ∀ {h t t' w w'}, (p.afterNode h).Gives (t, w) () (t', w') → Harmless t t'

theorem Vouched.advance (hv : Vouched config separator run)
    (hnumber : ∀ {w w' z values}, p.solve.Gives w (.solved z values) w' → z ≠ .undefined)
    (hafter : SparesIncumbent p) {place place' : Place Extended}
    (hgrounded : Grounded config separator place run)
    (next : (Search.advance p config place).Gives run place' run') :
    Vouched config separator run' ∧ Grounded config separator place' run' := by
  have hround : ∀ {answer : Option (Answer Extended)} {id rounds : Int},
      (cutRound p config id rounds).Gives run answer run' → Vouched config separator run' ∧
        run'.tree = run.tree ∧ ∀ a ∈ answer, Founded config separator run.tree.stats.upper a := by
    intro answer id rounds round
    obtain ⟨hkept, hlike, hrounds⟩ := rounds_of_gives round
    refine ⟨hv.harmless (hkept.tree ▸ .refl _) ?_ (hlike.trans hv.like) hkept.incumbentValues,
      hkept.tree, hrounds.founded hnumber hv.like⟩
    rw [hkept.tree, hkept.queue]
    exact hv.known
  cases moves_of_gives next with
  | done => exact ⟨hv, trivial⟩
  | drained popped => exact ⟨hv.harmless (.refl _) (hv.known.pop popped).1 hv.like rfl, trivial⟩
  | @taken _ _ h _ popped kept _ same =>
      obtain ⟨hknown, hlt⟩ := hv.known.pop popped
      have ht : Harmless run.tree run'.tree := by
        rw [kept.tree]
        exact harmless_modify _ h (fun _ => rfl) fun _ hn => hn
      refine ⟨hv.harmless ht ?_ (same ▸ hv.like) kept.incumbentValues,
        (hlt h rfl).trans_le ht.size_le⟩
      rw [kept.queue]
      exact hknown.mono ht.size_le
  | moved move =>
      obtain ⟨trail, world, -, rfl⟩ := gives_goTo.mp move
      exact ⟨hv.harmless (.refl _) hv.known hv.like rfl, hgrounded⟩
  | again round =>
      obtain ⟨hv', htree, -⟩ := hround round
      exact ⟨hv', by rw [Grounded, htree]; exact hgrounded⟩
  | answered round =>
      obtain ⟨hv', htree, hfounded⟩ := hround round
      exact ⟨hv', by rw [Grounded, htree]; exact ⟨hgrounded, hfounded _ rfl⟩⟩
  | closed close => exact ⟨hv.close hgrounded.1 hgrounded.2 (closes_of_gives close), trivial⟩
  | @returned _ _ t _ after =>
      have ht : Harmless run.tree t := hafter after
      exact ⟨hv.harmless ht (hv.known.mono ht.size_le) hv.like rfl, trivial⟩
  | rested => exact ⟨hv, trivial⟩

theorem vouched_outset (s : Solver Extended μ σ) (config : SearchConfig Extended) :
    Vouched config s.separator (outset s) := by
  refine ⟨OpenQueue.Known.add (fun e he => ?_) Nat.one_pos, fun k => ?_, .refl _, fun k hk => ?_⟩
  · cases he
  · show ((Tree.initial : Tree Extended μ).node k).lowerBound ≠ .undefined
    rw [Tree.node_initial]
    simp [Node.blank]
  · cases hk

theorem Reaches.vouched {s : Solver Extended μ σ}
    (hnumber : ∀ {w w' z values}, s.problem.solve.Gives w (.solved z values) w' → z ≠ .undefined)
    (hafter : SparesIncumbent s.problem) {place : Place Extended}
    (hreached : Reaches s.problem config (outset s) place run) :
    Vouched config s.separator run ∧ Grounded config s.separator place run := by
  induction hreached with
  | start => exact ⟨vouched_outset s config, trivial⟩
  | step _ next ih => exact ih.1.advance hnumber hafter ih.2 next

/-- Whatever the relaxation answers and whatever limits, cuts and order of the nodes are configured,
at every time of a search the values kept as the incumbent are those of the node that became it,
they are integral, and the separator finds no cut for them. The values of a solution that is
returned with an incumbent are therefore crossed by at least 2, up to the precision, at every proper
set of vertices of the separator's graph. -/
theorem incumbent_passed_separation (s : Solver Extended μ σ)
    (hnumber : ∀ {w w' z values}, s.problem.solve.Gives w (.solved z values) w' → z ≠ .undefined)
    (hafter : SparesIncumbent s.problem) (timeLimit : Option Extended) (nodeLimit : Option Int)
    (kind : GraphKind) (vs : List Vertex) (edges : List (Vertex × Vertex × Option Vertex))
    (hgraph : s.separator.graph.IsOf (Graph.build kind vs edges))
    (hcuts : 1 ≤ s.config.maxCutsPerRound) :
    (∀ {place run k},
      Reaches s.problem (Solver.limited s.config timeLimit nodeLimit) (outset s) place run →
      run.tree.incumbent = some k →
        (run.tree.node k).solution = run.incumbentValues ∧
        run.incumbentValues.isIntegral s.config.integralityTolerance = .ok true ∧
        (Run.separated s.config run.separator run.incumbentValues).1 = .ok []) ∧
      ∀ {steps solution run s'}, s.solve steps timeLimit nodeLimit = (.ok solution, run, s') →
        run.tree.incumbent.isSome = true → ∀ side : VertexSet,
          side.IsProper (Graph.build kind vs edges).vertices →
            2 - 1 / 1000000 ≤ solution.values.leaving kind side := by
  refine ⟨fun hreached hk => ?_, fun {steps solution run s'} hsolve hsome side hside => ?_⟩
  · have hv := (hreached.vouched hnumber hafter).1
    obtain ⟨-, hsolution, hclean⟩ := hv.incumbent _ hk
    refine ⟨hsolution, hclean.integral, ?_⟩
    exact (Run.separated_congr s.config hv.like _).trans hclean.uncut
  · simp only [Solver.solve, Prod.mk.injEq] at hsolve
    obtain ⟨run₁, hended, hhome, rfl⟩ := Reaches.complete (Prod.ext hsolve.1 hsolve.2.1)
    obtain ⟨k, hk⟩ := Option.isSome_iff_exists.mp hsome
    have hincumbent := (leaves_goHome (v := (·.tree.incumbent)) fun _ _ _ => rfl).of_gives hhome
    have hvalues := (leaves_goHome (v := (·.incumbentValues)) fun _ _ _ => rfl).of_gives hhome
    have hv := (hended.vouched hnumber hafter).1
    obtain ⟨-, -, hclean⟩ := hv.incumbent k (hincumbent ▸ hk)
    have hleaving := hclean.leaving hcuts (Graph.wellFormed_build kind vs edges) hgraph hside
    rw [Graph.build_kind] at hleaving
    show _ ≤ run.incumbentValues.leaving kind side
    rw [hvalues]
    exact hleaving

/-- A relaxation whose first values are integral and cut off; with a cut in force it has the tour.
-/
def detourRules : List (ScriptRule Extended) :=
  [⟨[], [], 1, 0, .finite 1, .solved (.finite 3)
      ⟨[([.int 0, .int 1], .finite 1), ([.int 1, .int 2], .finite 1),
        ([.int 0, .int 2], .finite 1)]⟩⟩,
    ⟨[], [], 0, 0, .finite 1, .solved (.finite 1)
      ⟨[([.int 0, .int 1], .finite 1), ([.int 1, .int 2], .finite 0),
        ([.int 0, .int 2], .finite 0)]⟩⟩]

def detourEdges : List (Vertex × Vertex × Option Vertex) :=
  [(.int 0, .int 1, none), (.int 1, .int 2, none), (.int 0, .int 2, none)]

def detourSolver : Solver Extended Move (Stage Extended) where
  problem := Script.problem ⟨detourRules, .dedupe, []⟩ (.edges EdgeBranching.standard)
  config := SearchConfig.standard
  queue := OpenQueue.empty .depthFirst
  separator := Separator.ofGraph (Graph.build .simple [] detourEdges) .dinitz
  listeners := []
  world := Stage.initial Watch.empty
  solution := none

/-- The values that are cut off do not become the incumbent, and those that do cross every cut. -/
theorem incumbent_passed_separation_detour :
    ∃ solution, (detourSolver.solve 10 none none).1 = .ok solution ∧ solution.status = .optimal ∧
      2 - 1 / 1000000 ≤ solution.values.leaving .simple (SortedSet.ofList [.int 2]) := by
  have hnumber : ∀ {w w' : Stage Extended} {z : Extended} {values : EdgeValues Extended},
      detourSolver.problem.solve.Gives w (.solved z values) w' → z ≠ .undefined := by
    intro w w' z values hgives
    simp only [detourSolver, Script.problem, Action.Gives, Action.runOn, Script.solve] at hgives
    split at hgives
    · cases (Prod.mk.inj hgives).1
    · rename_i rule hrule
      have hanswer : Script.answer rule.answer = .ok (.solved z values) := (Prod.mk.inj hgives).1
      have hmem := List.mem_of_find?_eq_some hrule
      simp only [detourRules, List.mem_cons, List.not_mem_nil, or_false] at hmem
      rcases hmem with rfl | rfl <;> cases hanswer <;> simp
  have hafter : SparesIncumbent detourSolver.problem := by
    intro h t t' w w' hgives
    have htree : t = t' := congrArg (fun result => result.2.1) hgives
    exact htree ▸ Harmless.refl t
  have hended : (detourSolver.solve 10 none none).1.toOption.map (·.status) = some .optimal ∧
      (detourSolver.solve 10 none none).2.1.tree.incumbent.isSome = true := by decide +kernel
  rcases hsolve : detourSolver.solve 10 none none with ⟨_ | solution, run, s'⟩
  · simp [hsolve, Except.toOption] at hended
  · rw [hsolve] at hended
    have hproper : (SortedSet.ofList [.int 2] : VertexSet).IsProper
        (Graph.build .simple [] detourEdges).vertices :=
      ⟨⟨.int 2, by decide⟩, by decide +kernel, ⟨.int 0, by decide +kernel, by decide⟩⟩
    have hpassed := (incumbent_passed_separation detourSolver hnumber hafter none none .simple []
      detourEdges (CutGraph.isOf_ofGraph _) (by decide)).2 hsolve hended.2 _ hproper
    exact ⟨solution, rfl, by simpa [Except.toOption] using hended.1, hpassed⟩

end Search

end TourSearch
