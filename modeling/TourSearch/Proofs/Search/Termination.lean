import TourSearch.Proofs.Search.Acceptance
import TourSearch.Proofs.Search.Budget
import TourSearch.Proofs.Search.Failures
import TourSearch.Proofs.Search.Growth
import TourSearch.Proofs.Search.Totality
import Mathlib

/-!
A search that branches on edges comes to an end, and its decisions never get in each other's way.
Two things run out. An edge that is restricted is never fractional, so that the decisions on a path
are about different edges, and a path is no longer than there are edges (`Reaches.orderly`).
Violated cuts are added either in one of the rounds that the settings allow, or to integral values;
then one of them is a set of vertices that was not stored before (`Reaches.rounds_le`). Since the
decisions of a path are about different edges, the trail can always move to a node and back home.
-/

namespace TourSearch

open Numeric

def Graph.keys (g : Graph) : Finset VertexSet :=
  (g.lines.map fun line => Edge.key [line.tail, line.head]).toFinset

/-- Faults that decisions have, or a search for want of steps. -/
def Fault.OfSearch (fault : Fault) : Prop := fault.IsConflict ∨ fault = .outOfSteps

theorem Fault.OfValues.not_ofSearch {fault : Fault} (h : fault.OfValues) : ¬fault.OfSearch := by
  rintro (hconflict | rfl)
  · cases fault <;> first | exact h | exact hconflict
  · exact h

namespace Search

variable {σ : Type} {s : Solver Extended Move σ} {config : SearchConfig Extended}
  {view : σ → Restrictions} {stored : σ → Finset VertexSet} {g : Graph}
  {run run' : Run Extended Move σ} {place place' : Place Extended} {h : Handle} {fault : Fault}

/-! ### Partners of a search on edges -/

/-- Edge values that keep to given edges and, up to a tolerance, to restrictions: a fixed edge has
the value 1 and a forbidden one 0. -/
structure Respects (keys : Finset VertexSet) (tolerance : Extended) (r : Restrictions)
    (values : EdgeValues Extended) : Prop where
  keys : ∀ entry ∈ values.entries, entry.1.key ∈ keys
  fixed : ∀ entry ∈ values.entries, entry.1.key ∈ r.fixed →
    Scalar.magnitude (entry.2 - .finite 1) ≤ tolerance
  forbidden : ∀ entry ∈ values.entries, entry.1.key ∈ r.forbidden →
    Scalar.magnitude (entry.2 - .finite 0) ≤ tolerance

instance (keys : Finset VertexSet) (tolerance : Extended) (r : Restrictions)
    (values : EdgeValues Extended) : Decidable (Respects keys tolerance r values) :=
  decidable_of_iff ((∀ entry ∈ values.entries, entry.1.key ∈ keys) ∧
      (∀ entry ∈ values.entries, entry.1.key ∈ r.fixed →
        Scalar.magnitude (entry.2 - .finite 1) ≤ tolerance) ∧
      ∀ entry ∈ values.entries, entry.1.key ∈ r.forbidden →
        Scalar.magnitude (entry.2 - .finite 0) ≤ tolerance)
    ⟨fun ⟨hkeys, hfixed, hforbidden⟩ => ⟨hkeys, hfixed, hforbidden⟩,
      fun ⟨hkeys, hfixed, hforbidden⟩ => ⟨hkeys, hfixed, hforbidden⟩⟩

/-- What is fractional is not restricted. -/
theorem Respects.free {keys : Finset VertexSet} {tolerance x : Extended} {r : Restrictions}
    {values : EdgeValues Extended} (hvalues : Respects keys tolerance r values) {e : Edge}
    (hmem : (e, x) ∈ values.entries) (hfractional : Fractional tolerance x) :
    e.key ∈ keys ∧ e.key ∉ r.fixed ∧ e.key ∉ r.forbidden := by
  refine ⟨hvalues.keys _ hmem, fun hfixed => ?_, fun hforbidden => ?_⟩
  · exact not_fractional_of_near (Or.inr rfl) (hvalues.fixed _ hmem hfixed) hfractional
  · exact not_fractional_of_near (Or.inl rfl) (hvalues.forbidden _ hmem hforbidden) hfractional

/-- A relaxation that stores sets of vertices, none of them twice, and says how many of the sets
that it is offered are new. Solving it leaves them stored. -/
structure StoresOnce (p : Problem Extended Move σ) (stored : σ → Finset VertexSet) : Prop where
  kept : ∀ {cuts w count w'}, (p.addCuts cuts).Gives w count w' → stored w ⊆ stored w'
  offered : ∀ {cuts w count w'}, (p.addCuts cuts).Gives w count w' → ∀ side ∈ stored w',
    side ∈ stored w ∨ ∃ cut ∈ cuts, cut.side = side
  counted : ∀ {cuts w count w'}, (p.addCuts cuts).Gives w count w' →
    (stored w').card = (stored w).card + count
  solve : p.solve.Leaves stored

/-- The partners of a search on edges. Decisions act on the restrictions and succeed where these
allow them, no listener fails, nodes are split on edges, what is done after a node leaves the tree
alone, and no cut is stored twice. Other calls may fail, but not as if they were decisions. -/
structure Cooperates (p : Problem Extended Move σ) (tolerance : Extended) (view : σ → Restrictions)
    (stored : σ → Finset VertexSet) : Prop where
  bystanders : Bystanders p view
  obliges : Trail.Obliges p.perform view Trail.moveAct
  branching : BranchesOnEdges p tolerance
  keepsTree : KeepsTree p
  stores : StoresOnce p stored
  solve_fails : ∀ {w fault w'}, p.solve.Fails w fault w' → ¬fault.OfSearch
  addCuts_fails : ∀ {cuts w fault w'}, (p.addCuts cuts).Fails w fault w' → ¬fault.OfSearch
  afterNode_fails : ∀ {h w fault w'}, (p.afterNode h).Fails w fault w' → ¬fault.OfSearch

/-- What a relaxation answers in the course of a search keeps to the edges and the restrictions. -/
def AnswersRespect (s : Solver Extended Move σ) (config : SearchConfig Extended)
    (view : σ → Restrictions) (keys : Finset VertexSet) : Prop :=
  ∀ {h rounds run z values w}, Reaches s.problem config (outset s) (.solving h rounds) run →
    s.problem.solve.Gives run.world (.solved z values) w →
      Respects keys config.integralityTolerance (view run.world) values

/-- An answer that a node is closed with was given in a round of cuts. -/
theorem Reaches.of_closing {p : Problem Extended Move σ} {start : Run Extended Move σ}
    {answer : Answer Extended} (hreached : Reaches p config start (.closing h answer) run') :
    ∃ rounds run, Reaches p config start (.solving h rounds) run ∧ Kept run run' ∧
      Rounds p config rounds run run' (some answer) := by
  cases hreached with
  | @step place _ run _ before next =>
      cases moves_of_gives next with
      | answered round =>
          obtain ⟨hkept, -, hrounds⟩ := rounds_of_gives round
          exact ⟨_, run, before, hkept, hrounds⟩

theorem Rounds.solved {p : Problem Extended Move σ} {rounds : Int} {z : Extended}
    {values : EdgeValues Extended}
    (hrounds : Rounds p config rounds run run' (some (.solved z values))) :
    p.solve.Gives run.world (.solved z values) run'.world := by
  cases hrounds with
  | hopeless solved => exact solved
  | uncut solved => exact solved
  | last solved => exact solved

/-! ### The tree of the search -/

section

variable (hp : Cooperates s.problem config.integralityTolerance view stored)

include hp

theorem Reaches.grows (hreached : Reaches s.problem config (outset s) place run)
    (next : (advance s.problem config place).Gives run place' run') :
    Grows config.integralityTolerance place run.tree run'.tree := by
  obtain ⟨visited, hvisits⟩ := hreached.visits
  have hl : Ledger visited place.hand run := hvisits.ledger hp.keepsTree (ledger_outset s)
  exact grows_of_gives hp.branching hp.keepsTree hl.fits (fun h hh => (hl.processing h).mpr hh) next

theorem Reaches.grown (hreached : Reaches s.problem config (outset s) place run) :
    run.tree.Grown := by
  induction hreached with
  | start => exact Tree.grown_initial
  | step before next ih => exact (before.grows hp next).grown ih

theorem Reaches.measured (hreached : Reaches s.problem config (outset s) place run) :
    run.tree.Measured := by
  induction hreached with
  | start => exact Tree.measured_initial
  | step before next ih => exact (before.grows hp next).measured ih

variable (hempty : view s.world = Restrictions.empty)

include hempty

theorem Reaches.settled (hreached : Reaches s.problem config (outset s) place run) :
    Settles view Restrictions.empty run ∧ Located place run := by
  refine hreached.settles hp.bystanders (KeepsTree.keepsDescent hp.keepsTree) (fun before => ?_)
    (hempty ▸ settles_outset s)
  exact identified_allDecisions (before.grown hp)

variable {keys : Finset VertexSet} (hanswers : AnswersRespect s config view keys)

include hanswers

/-- What a node can be split on is an edge about which nothing was decided on its path: the
decisions there are applied, so that their edges are restricted. -/
theorem Reaches.untried (hreached : Reaches s.problem config (outset s) place run) :
    Untried keys config.integralityTolerance run.tree place := by
  cases place with
  | closing h answer =>
      cases answer with
      | infeasible => trivial
      | solved z values =>
          obtain ⟨rounds, before, hbefore, hkept, hrounds⟩ := hreached.of_closing
          obtain ⟨hsettles, -, hhere⟩ := hbefore.settled hp hempty
          intro e x hmem hfractional
          obtain ⟨hkey, hfixed, hforbidden⟩ :=
            (hanswers hbefore hrounds.solved).free hmem hfractional
          refine ⟨hkey, fun hold => ?_⟩
          rw [hkept.tree, ← hhere] at hold
          obtain ⟨d, hd, hdkey⟩ := List.mem_map.mp hold
          rcases Trail.restricted_of_mem hsettles.applied hd with h | h <;> rw [hdkey] at h
          · exact hfixed h
          · exact hforbidden h
  | _ => trivial

theorem Reaches.orderly (hreached : Reaches s.problem config (outset s) place run) (k : Handle) :
    Orderly keys (run.tree.node k).decisions := by
  induction hreached generalizing k with
  | start => exact orderly_initial keys k
  | step before next ih =>
      exact (before.grows hp next).orderly (before.untried hp hempty hanswers) ih k

theorem Reaches.spends (hreached : Reaches s.problem config (outset s) place run) :
    Spends keys.card place run := by
  induction hreached with
  | start => exact spends_start _ _ _ _ _ _
  | step before next ih =>
      obtain ⟨hsettles, hlocated⟩ := before.settled hp hempty
      exact ih.advance hp.branching (KeepsTree.keepsDescent hp.keepsTree) hsettles.known hlocated
        (fun k => (before.orderly hp hempty hanswers k).length_le) next

theorem Reaches.maxDepth_le (hreached : Reaches s.problem config (outset s) place run) :
    run.tree.stats.maxDepth ≤ keys.card := by
  have hmeasured := hreached.measured hp
  obtain ⟨k, -, hmax⟩ := hmeasured.attained
  have hlength := (hreached.orderly hp hempty hanswers k).length_le
  rw [hmeasured.depth_eq] at hmax
  omega

end

/-! ### Rounds of cuts -/

def within (vertices : List Vertex) (sets : Finset VertexSet) : Finset VertexSet :=
  sets.filter fun s => ∀ v ∈ s.members, v ∈ vertices

theorem card_within_le (vertices : List Vertex) (sets : Finset VertexSet) :
    (within vertices sets).card ≤ 2 ^ vertices.length :=
  card_sets_le fun _ hs => (Finset.mem_filter.mp hs).2

/-- Cuts of integral values are proper sets of vertices. -/
theorem subset_of_separated {config : SearchConfig Extended} (hg : g.WellFormed)
    {separator : Separator Extended} (hgraph : separator.graph.IsOf g)
    {values : EdgeValues Extended} {cuts : List (Cut Extended)}
    (hintegral : values.isIntegral config.integralityTolerance = .ok true)
    (hfound : (Run.separated config separator values).1 = .ok cuts) {cut : Cut Extended}
    (hcut : cut ∈ cuts) : ∀ v ∈ cut.side, v ∈ g.vertices := by
  obtain ⟨config', hcuts, hfound'⟩ := Run.exists_separated_eq (List.ne_nil_of_mem hcut) hfound
  obtain ⟨cuts', hcuts', hseparates⟩ := Run.separated_spec hcuts hg hgraph
    (finite_of_isIntegral hintegral) (Run.refresh_of_separated hcuts hfound')
  obtain rfl := Except.ok.inj (hcuts'.symm.trans hfound')
  exact (hseparates.violated cut hcut).1.subset

/-- A round beyond those that the settings allow stores a new set of vertices. -/
theorem Rounds.card_within_lt {p : Problem Extended Move σ} (hstores : StoresOnce p stored)
    (hg : g.WellFormed) (hgraph : run.separator.graph.IsOf g) {rounds : Int}
    (hlast : config.maxCutRounds ≤ rounds) (hrounds : Rounds p config rounds run run' none) :
    (within g.vertices (stored run.world)).card < (within g.vertices (stored run'.world)).card := by
  cases hrounds with
  | @again z values cuts w count solved found _ taken added whole =>
      have hsame : stored w = stored run.world := hstores.solve.of_gives solved
      have hcounted := hstores.counted added
      obtain ⟨side, hnew, hold⟩ : ∃ side ∈ stored run'.world, side ∉ stored w :=
        Finset.exists_mem_notMem_of_card_lt_card (by omega)
      have hside : side ∈ within g.vertices (stored run'.world) := by
        obtain hstored | ⟨cut, hcut, rfl⟩ := hstores.offered added side hnew
        · exact absurd hstored hold
        · exact Finset.mem_filter.mpr ⟨hnew, subset_of_separated hg hgraph (whole hlast) found hcut⟩
      rw [← hsame]
      refine Finset.card_lt_card ((Finset.ssubset_iff_of_subset ?_).mpr ⟨side, hside, fun h => ?_⟩)
      · exact Finset.filter_subset_filter _ (hstores.kept added)
      · exact hold (Finset.mem_filter.mp h).1

def Paced (config : SearchConfig Extended) (g : Graph) (stored : σ → Finset VertexSet) :
    Place Extended → Run Extended Move σ → Prop
  | .solving _ rounds, run =>
      rounds ≤ config.maxCutRounds.toNat + (within g.vertices (stored run.world)).card
  | _, _ => True

theorem Reaches.rounds_le (hstores : StoresOnce s.problem stored) (hg : g.WellFormed)
    (hgraph : s.separator.graph.IsOf g) {rounds : Nat}
    (hreached : Reaches s.problem config (outset s) (.solving h rounds) run) :
    rounds ≤ config.maxCutRounds.toNat + 2 ^ g.vertices.length := by
  have hpaced : ∀ {place run}, Reaches s.problem config (outset s) place run →
      Paced config g stored place run := by
    intro place run hreached
    induction hreached with
    | start => trivial
    | step before next ih =>
        cases moves_of_gives next with
        | moved => exact Nat.zero_le _
        | @again run run' h rounds round =>
            obtain ⟨-, -, hrounds⟩ := rounds_of_gives round
            have hpaced : rounds ≤ _ + _ := ih
            show rounds + 1 ≤ _ + _
            rcases lt_or_ge (rounds : Int) config.maxCutRounds with hallowed | hlast
            · omega
            · have hless := hrounds.card_within_lt hstores hg (before.like.1.trans hgraph) hlast
              omega
        | _ => trivial
  have hbound : rounds ≤ _ + _ := hpaced hreached
  have hcard := card_within_le g.vertices (stored run.world)
  omega

/-! ### Whole searches -/

section

variable (hp : Cooperates s.problem config.integralityTolerance view stored)
  (hempty : view s.world = Restrictions.empty) {keys : Finset VertexSet}
  (hanswers : AnswersRespect s config view keys)

include hp hempty hanswers

/-- The trail can move to every node that is taken up, since the decisions of its path can be
applied. -/
theorem Reaches.undisturbed (hreached : Reaches s.problem config (outset s) place run) :
    Undisturbed s.problem place run := by
  cases place with
  | moving h =>
      obtain ⟨hsettles, -⟩ := hreached.settled hp hempty
      obtain ⟨r, hpath⟩ := (hreached.orderly hp hempty hanswers h).applicable
      exact calm_callsTo hp.bystanders.acts hp.obliges hsettles.settled
        (hsettles.identified (identified_allDecisions (hreached.grown hp)) h) hsettles.applied hpath
  | _ => trivial

/-- However a search ends, its trail comes home consistent. -/
theorem goHome_search (steps : Nat) :
    ∃ home, (Run.goHome s.problem).Gives
      ((Run.search s.problem config steps).runOn (outset s)).2 () home ∧
        home.trail.consistent = true := by
  have hanchored : Anchored view (view s.world)
      ((Run.search s.problem config steps).runOn (outset s)).2 :=
    anchored_search hp.bystanders hp.obliges.takesBack
      (fun hreached => hreached.undisturbed hp hempty hanswers) (anchored_outset s)
  obtain ⟨world, hgives, -⟩ := hanchored.goHome hp.bystanders hp.obliges.takesBack
    (calm_callsHome hp.bystanders.acts hp.obliges hanchored.applied)
  exact ⟨_, hgives, hanchored.consistent⟩

theorem Breaks.not_ofSearch (hreached : Reaches s.problem config (outset s) place run)
    (hbreaks : Breaks s.problem config place run fault) : ¬fault.OfSearch := by
  cases hbreaks with
  | report =>
      rintro (hconflict | hsteps)
      · exact hconflict
      · cases hsteps
  | move failed =>
      have hanchored := hreached.anchored hp.bystanders hp.obliges.takesBack
        (fun before => before.undisturbed hp hempty hanswers) (anchored_outset s)
      obtain ⟨moved, hgoTo, -⟩ := hanchored.goTo hp.bystanders hp.obliges.takesBack
        (hreached.undisturbed hp hempty hanswers)
      exact absurd (hgoTo.symm.trans failed) (by simp)
  | solve failed => exact hp.solve_fails failed
  | values wrong => exact wrong.not_ofSearch
  | addCuts failed => exact hp.addCuts_fails failed
  | rejected =>
      rintro (hconflict | hsteps)
      · exact hconflict
      · cases hsteps
  | test wrong => exact wrong.not_ofSearch
  | split failed =>
      rw [Action.Fails, hp.branching] at failed
      exact (BlamesValues.candidates _ _ _ _ (Prod.mk.inj failed).1).not_ofSearch
  | afterNode failed => exact hp.afterNode_fails failed

end

/-- As many steps as a search on the edges of a graph can need: the rounds that the settings allow
and one for each set of vertices at a node, and the nodes of a binary tree as deep as there are
edges. -/
def stepsFor (config : SearchConfig Extended) (g : Graph) : Nat :=
  config.maxCutRounds.toNat + 2 ^ g.vertices.length + 2 ^ (g.keys.card + 1)

theorem Stops.not_ofSearch (hp : Cooperates s.problem config.integralityTolerance view stored)
    (hempty : view s.world = Restrictions.empty) (hanswers : AnswersRespect s config view g.keys)
    (hg : g.WellFormed) (hgraph : s.separator.graph.IsOf g) {steps : Nat}
    (hsteps : stepsFor config g ≤ steps)
    (hstops : Stops s.problem config (outset s) steps fault run) : ¬fault.OfSearch := by
  cases hstops with
  | failure reached failed =>
      exact Breaks.not_ofSearch hp hempty hanswers reached (breaks_of_fails failed)
  | rounds reached =>
      have hrounds := reached.rounds_le hp.stores hg hgraph
      have hpos := Nat.two_pow_pos (g.keys.card + 1)
      unfold stepsFor at hsteps
      omega
  | nodes reached explored =>
      have hspends : run.explored + _ < 2 ^ (g.keys.card + 1) := reached.spends hp hempty hanswers
      have hnone : (outset s).explored = 0 := rfl
      have hpos := Nat.two_pow_pos g.vertices.length
      unfold stepsFor at hsteps
      omega

/-- A search on the edges of a graph, over a relaxation that has no restrictions at first and keeps
to those that decisions set, comes to an end whatever limits are given, in a number of steps known
from the graph and the settings. It never fails because decisions are in conflict, and its trail
stays consistent. The decisions on every path of the tree are about different edges of the graph,
and no node is deeper than there are edges. -/
theorem ends_without_conflict (s : Solver Extended Move σ) (view : σ → Restrictions)
    (stored : σ → Finset VertexSet)
    (hp : Cooperates s.problem s.config.integralityTolerance view stored)
    (hempty : view s.world = Restrictions.empty) (kind : GraphKind) (vs : List Vertex)
    (edges : List (Vertex × Vertex × Option Vertex))
    (hgraph : s.separator.graph.IsOf (Graph.build kind vs edges)) (timeLimit : Option Extended)
    (nodeLimit : Option Int)
    (hanswers : AnswersRespect s (Solver.limited s.config timeLimit nodeLimit) view
      (Graph.build kind vs edges).keys) :
    (∀ steps, stepsFor s.config (Graph.build kind vs edges) ≤ steps →
      (∀ fault, (s.solve steps timeLimit nodeLimit).1 = .error fault →
        fault ≠ .outOfSteps ∧ ¬fault.IsConflict) ∧
      (s.solve steps timeLimit nodeLimit).2.1.trail.consistent = true ∧
      ∀ solution, (s.solve steps timeLimit nodeLimit).1 = .ok solution →
        solution.maxDepth ≤ (Graph.build kind vs edges).keys.card) ∧
    ∀ {place run},
      Reaches s.problem (Solver.limited s.config timeLimit nodeLimit) (outset s) place run →
        run.trail.consistent = true ∧
        run.tree.stats.maxDepth ≤ (Graph.build kind vs edges).keys.card ∧
        ∀ h path, run.tree.PathTo h path →
          (path.map Decision.key).Nodup ∧ ∀ d ∈ path, d.key ∈ (Graph.build kind vs edges).keys := by
  -- The limits make no difference to the partners.
  have hp' : Cooperates s.problem (Solver.limited s.config timeLimit nodeLimit).integralityTolerance
      view stored := hp
  refine ⟨fun steps hsteps => ⟨fun fault hfault => ?_, ?_, fun solution hsolution => ?_⟩, ?_⟩
  · rcases stops_of_complete hfault with ⟨run, hstops⟩ | ⟨run, hfails⟩
    · have hother := hstops.not_ofSearch hp' hempty hanswers (Graph.wellFormed_build kind vs edges)
        hgraph hsteps
      exact ⟨fun h => hother (Or.inr h), fun h => hother (Or.inl h)⟩
    · obtain ⟨home, hgives, -⟩ := goHome_search hp' hempty hanswers steps
      exact absurd (hgives.symm.trans hfails) (by simp)
  · obtain ⟨home, hgives, hconsistent⟩ := goHome_search hp' hempty hanswers steps
    have hcomplete := congrArg Prod.snd (complete_of_goHome hgives)
    exact (congrArg (·.trail.consistent) hcomplete).trans hconsistent
  · have hcomplete : (outset s).complete s.problem (Solver.limited s.config timeLimit nodeLimit)
        steps = (.ok solution, (s.solve steps timeLimit nodeLimit).2.1) := Prod.ext hsolution rfl
    obtain ⟨run, hended, hhome, rfl⟩ := Reaches.complete hcomplete
    have htree := (leaves_goHome (v := (·.tree)) fun _ _ _ => rfl).of_gives hhome
    have hdepth := hended.maxDepth_le hp' hempty hanswers
    show ((s.solve steps timeLimit nodeLimit).2.1).tree.stats.maxDepth ≤ _
    rw [htree]
    exact hdepth
  · intro place run hreached
    obtain ⟨hsettles, -⟩ := hreached.settled hp' hempty
    refine ⟨hsettles.settled.consistent, hreached.maxDepth_le hp' hempty hanswers,
      fun h path hpath => ?_⟩
    rw [(hsettles.descended.pathTo_iff (hsettles.descended.lt_of_pathTo hpath)).mp hpath]
    have horderly := hreached.orderly hp' hempty hanswers h
    exact ⟨horderly.nodup, horderly.within⟩

def squareEdges : List (Vertex × Vertex × Option Vertex) :=
  detourEdges ++ [(.int 0, .int 3, none), (.int 1, .int 3, none), (.int 2, .int 3, none)]

def squareValues (a b c d : Rat) : EdgeValues Extended :=
  ⟨[([.int 0, .int 1], .finite 1), ([.int 2, .int 3], .finite 1), ([.int 0, .int 2], .finite a),
    ([.int 0, .int 3], .finite b), ([.int 1, .int 2], .finite c), ([.int 1, .int 3], .finite d)]⟩

/-- Two pairs at first. With a cut they are joined, on one edge by a half until it is decided on. -/
def squareAnswer (w : Restrictions × Finset VertexSet) : Extended × EdgeValues Extended :=
  if w.2 = ∅ then (.finite 7, squareValues 0 0 0 0)
  else if w.1.isFixed [.int 0, .int 2] then (.finite 8, squareValues 1 0 0 1)
  else if w.1.isForbidden [.int 0, .int 2] then (.finite 9, squareValues 0 1 1 0)
  else (.finite (15 / 2), squareValues (1 / 2) 1 1 0)

def squareSolver : Solver Extended Move (Restrictions × Finset VertexSet) where
  problem :=
    { now := fun _ => .finite 0
      solve := fun w => (.ok (.solved (squareAnswer w).1 (squareAnswer w).2), w)
      addCuts := fun cuts w =>
        let sets := w.2 ∪ (cuts.map (·.side)).toFinset
        (.ok (sets.card - w.2.card), (w.1, sets))
      perform := fun call w =>
        match call with
        | .act a d =>
            match Move.act a d.move w.1 with
            | .ok r => (.ok (), (r, w.2))
            | .error fault => (.error fault, w)
        | .notify .. => (.ok (), w)
      candidates := fun n values w => (EdgeBranching.standard.candidates n.id.toNat values, w)
      afterNode := fun _ => pure () }
  config := SearchConfig.standard
  queue := OpenQueue.empty .bestFirst
  separator := Separator.ofGraph (Graph.build .simple [] squareEdges) .dinitz
  listeners := []
  world := (Restrictions.empty, ∅)
  solution := none

theorem storesOnce_square : StoresOnce squareSolver.problem Prod.snd where
  kept := by
    rintro cuts w _ _ ⟨⟩
    exact Finset.subset_union_left
  offered := by
    rintro cuts w _ _ ⟨⟩ side hside
    refine (Finset.mem_union.mp hside).imp_right fun h => ?_
    exact List.mem_map.mp (List.mem_toFinset.mp h)
  counted := by
    rintro cuts w _ _ ⟨⟩
    exact (Nat.add_sub_cancel' (Finset.card_le_card Finset.subset_union_left)).symm
  solve := fun _ => rfl

theorem cooperates_square :
    Cooperates squareSolver.problem squareSolver.config.integralityTolerance Prod.fst Prod.snd where
  bystanders :=
    { acts :=
        { act_ok := by
            rintro a d w w' hgives
            simp only [squareSolver, Action.runOn] at hgives
            split at hgives
            · rename_i r hact
              obtain ⟨-, rfl⟩ := Prod.mk.inj hgives
              exact hact
            · cases hgives
          notify_ok := by
            rintro name a d w _ ⟨⟩
            rfl }
      solve := fun _ => rfl
      addCuts := fun _ _ => rfl
      candidates := fun _ _ _ => rfl
      afterNode := fun _ _ => rfl }
  obliges :=
    { act_ok := by
        intro a d w r hact
        have hact' : Move.act a d.move w.1 = .ok r := hact
        simp [squareSolver, Action.runOn, hact']
      notify_ok := fun _ _ _ _ => rfl }
  branching := fun _ _ _ => rfl
  keepsTree := fun after => (congrArg (fun result => result.2.1) after).symm
  stores := storesOnce_square
  solve_fails := fun failed => by cases failed
  addCuts_fails := fun failed => by cases failed
  afterNode_fails := fun failed => by cases failed

/-- A search on four vertices needs 244 steps at most, and no node of it is deeper than the six
edges allow. -/
theorem ends_without_conflict_square :
    stepsFor squareSolver.config (Graph.build .simple [] squareEdges) = 244 ∧
      (squareSolver.solve 244 none none).1.toOption.map (fun solution => (solution.status,
        solution.nodesExplored, solution.cutsAdded, solution.maxDepth)) = some (.optimal, 3, 2, 1) ∧
      (squareSolver.solve 244 none none).2.1.trail.consistent = true ∧
      ∀ {place run},
        Reaches squareSolver.problem squareSolver.config (outset squareSolver) place run →
        run.tree.stats.maxDepth ≤ 6 := by
  have hkeys : (Graph.build .simple [] squareEdges).keys.card = 6 := by decide +kernel
  have hsteps : stepsFor squareSolver.config (Graph.build .simple [] squareEdges) = 244 := by
    decide +kernel
  have hend : orbit squareSolver.problem squareSolver.config (outset squareSolver) 18 = none := by
    decide +kernel
  have hanswers : AnswersRespect squareSolver squareSolver.config Prod.fst
      (Graph.build .simple [] squareEdges).keys := by
    intro h rounds run z values w hreached hsolved
    obtain ⟨-, rfl⟩ := Answer.solved.inj (Except.ok.inj (Prod.mk.inj hsolved).1)
    exact Reaches.of_orbit (P := fun _ run => Respects (Graph.build .simple [] squareEdges).keys
      squareSolver.config.integralityTolerance run.world.1 (squareAnswer run.world).2) hend
      (by decide +kernel) hreached
  obtain ⟨hsolves, hreaches⟩ := ends_without_conflict squareSolver Prod.fst Prod.snd
    cooperates_square rfl .simple [] squareEdges (CutGraph.isOf_ofGraph _) none none hanswers
  refine ⟨hsteps, by decide +kernel, (hsolves 244 hsteps.le).2.1, fun hreached => ?_⟩
  have hdepth := (hreaches hreached).2.1
  rwa [hkeys] at hdepth

end Search

end TourSearch
