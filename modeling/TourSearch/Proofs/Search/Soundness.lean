import TourSearch.Proofs.Search.Course
import TourSearch.Proofs.Search.Node
import Mathlib

/-!
Soundness of a search. Every step leads from what is known at one place to what is known at the next
(`Stands.advance`), so that the invariant holds when a search ends. The bounds and the status of its
result then say what is known about every tour.
-/

namespace TourSearch

open Numeric

namespace Search

variable {σ : Type} {S : Setup σ} {view : σ → Restrictions} {F : Set Tour} {tau gap : Rat}
  {run run' : Run Extended Move σ} {h : Handle}

/-! ### Exploring one node -/

theorem Standing.kept (hs : Standing S view F run) (hk : Kept run run')
    (hmeets : Meets S run'.world) (hlike : run'.separator.Like S.separator)
    (hview : view run'.world = view run.world) : Standing S view F run' := by
  refine ⟨?_, ?_, ?_, ?_, ?_, ?_, hmeets, hlike, ?_⟩
  · rw [hk.tree]
    exact hs.grown
  · rw [hk.tree, hk.queue]
    exact hs.fits
  · rw [hk.trail]
    exact hs.settled
  · rw [hk.trail]
    exact hs.listeners
  · rw [hk.tree, hk.trail]
    exact hs.onTree
  · rw [hk.trail, hview]
    exact hs.applied
  · rw [hk.tree, hk.incumbentValues]
    exact hs.incumbent

theorem At.kept (ha : At S view F tau h run) (hk : Kept run run') (hmeets : Meets S run'.world)
    (hlike : run'.separator.Like S.separator) (hview : view run'.world = view run.world) :
    At S view F tau h run' := by
  refine ⟨ha.toStanding.kept hk hmeets hlike hview, ?_, ?_, ?_⟩
  · rw [hk.tree]
    exact ha.known
  · rw [hk.tree]
    exact ha.processing
  · rw [hk.tree, hk.queue]
    exact ha.covered

theorem At.goTo (hP : Partners S view) (ha : At S view F tau h run)
    (hgives : (Run.goTo S.problem h).Gives run () run') :
    At S view F tau h run' ∧ run'.trail.history = (run'.tree.node h).decisions := by
  obtain ⟨k, hk, hhistory⟩ := ha.onTree
  have hid : Decision.Identified (run.trail.history ++ (run.tree.node h).decisions) := by
    rw [hhistory]
    intro d hd e he
    rcases List.mem_append.mp hd with hd | hd <;> rcases List.mem_append.mp he with he | he <;>
      exact ha.grown.identified _ _ d hd e he
  obtain ⟨trail, world, hmove, rfl⟩ := gives_goTo.mp hgives
  obtain ⟨rfl, shared, hshared, hperforms⟩ := ha.settled.transition_ok hid hmove
  refine ⟨⟨⟨ha.grown, ha.fits, ⟨ha.settled.consistent, Or.inl rfl⟩, ha.listeners,
    ⟨h, ha.known, rfl⟩, ?_, ?_, ha.like, ha.incumbent⟩, ha.known, ha.processing, ha.covered⟩, rfl⟩
  · exact hP.acts.plan (hshared.take_eq hid) hshared.le_left (Trail.undoes_moveAct _ _) ha.applied
      hperforms
  · rw [ha.listeners] at hperforms
    exact ha.meets.plan hperforms

theorem Between.take (hb : Between S view F tau run) {q : OpenQueue Extended}
    (hpop : run.queue.pop run.tree = (some h, q)) (explored : Nat) :
    At S view F tau h { run with
      explored
      queue := q
      tree := run.tree.modify h fun n => { n with status := .processing } } := by
  obtain ⟨hfits, hpending, e, dropped, rfl, hperm, hclosed⟩ := hb.fits.pop_some hpop
  have hknown : e.node < run.tree.records.size :=
    hb.fits.known e (hperm.mem_iff.mpr (List.mem_append_right _ List.mem_cons_self))
  have hnode := run.tree.node_modify_self hknown fun n => { n with status := .processing }
  have hpopped : Standing S view F { run with explored, queue := q } :=
    ⟨hb.grown, hfits, hb.settled, hb.listeners, hb.onTree, hb.applied, hb.meets, hb.like,
      hb.incumbent⟩
  refine ⟨hpopped.modify (Or.inl (Node.isPending_iff.mp hpending)) rfl rfl (hb.grown.bounded _)
    (by simp), by simpa using hknown, by rw [hnode], fun T hT => ?_⟩
  rcases hb.covered T hT with ⟨k, ⟨f, hf, rfl⟩, hk, hholds⟩ | hcost
  · by_cases hke : f.node = e.node
    · right
      unfold Holds
      rw [hnode, ← hke]
      exact hholds
    · -- Another pending node stays in the queue.
      left
      refine Or.inl ⟨f.node, ⟨f, ?_, rfl⟩, ?_⟩
      · rcases List.mem_append.mp (hperm.mem_iff.mp hf) with hdropped | hrest
        · rw [hclosed f hdropped] at hk
          cases hk
        · rcases List.mem_cons.mp hrest with rfl | hrest
          · exact absurd rfl hke
          · exact hrest
      · unfold Holds
        rw [Tree.node_modify_of_ne _ hke]
        exact ⟨hk, hholds⟩
  · exact Or.inl (Or.inr hcost)

/-! ### Whole searches -/

def Stands (S : Setup σ) (view : σ → Restrictions) (F : Set Tour) (tau : Rat) :
    Place Extended → Run Extended Move σ → Prop
  | .between, run | .closed _, run | .ended, run => Between S view F tau run
  | .moving h, run => At S view F tau h run
  | .solving h _, run =>
      At S view F tau h run ∧ run.trail.history = (run.tree.node h).decisions
  | .closing h answer, run =>
      At S view F tau h run ∧ run.trail.history = (run.tree.node h).decisions ∧
        Justified S F (view run.world) run.tree.stats.upper answer

/-- A queue without pending nodes leaves no tour behind. -/
theorem Between.drain (hb : Between S view F tau run) {q : OpenQueue Extended}
    (hpop : run.queue.pop run.tree = (none, q)) : Between S view F tau { run with queue := q } := by
  obtain ⟨hfits, -, hclosed⟩ := hb.fits.pop_none hpop
  refine ⟨⟨hb.grown, hfits, hb.settled, hb.listeners, hb.onTree, hb.applied, hb.meets, hb.like,
    hb.incumbent⟩, fun T hT => ?_⟩
  rcases hb.covered T hT with ⟨k, ⟨e, he, rfl⟩, hpending, -⟩ | hcost
  · rw [hclosed e he] at hpending
    cases hpending
  · exact Or.inr hcost

/-- A round of cuts leaves the search at its node. -/
theorem At.round (hP : Partners S view) (hV : Valid S view F) (hat : At S view F tau h run)
    (hhere : run.trail.history = (run.tree.node h).decisions) {id rounds : Int}
    {answer : Option (Answer Extended)}
    (round : (cutRound S.problem S.config id rounds).Gives run answer run') :
    At S view F tau h run' ∧ run'.trail.history = (run'.tree.node h).decisions ∧
      ∀ a ∈ answer, Justified S F (view run'.world) run'.tree.stats.upper a := by
  obtain ⟨hkept, hlike, hrounds⟩ := rounds_of_gives round
  obtain ⟨hmeets, hview, hjustified⟩ := hrounds.justified hP hV hat.meets hat.like
  refine ⟨hat.kept hkept hmeets (hlike.trans hat.like) hview, ?_, ?_⟩
  · rw [hkept.tree, hkept.trail]
    exact hhere
  · rw [hview, hkept.tree]
    exact hjustified

theorem Stands.advance (hP : Partners S view) (hV : Valid S view F)
    (hgap : S.config.gapTolerance = .finite gap) (hnonneg : 0 ≤ gap) (hgapTau : gap ≤ tau)
    (htau : 1 / 1000000 ≤ tau) {place place' : Place Extended}
    (hstands : Stands S view F tau place run)
    (next : (Search.advance S.problem S.config place).Gives run place' run') :
    Stands S view F tau place' run' := by
  cases moves_of_gives next with
  | done => exact hstands
  | drained popped => exact Between.drain hstands popped
  | taken popped kept world separator =>
      have htaken := Between.take hstands popped (run.explored + 1)
      exact htaken.kept kept (world ▸ htaken.meets) (separator ▸ htaken.like) (by rw [world])
  | moved move => exact At.goTo hP hstands move
  | again round =>
      obtain ⟨hat, hhere, -⟩ := hstands.1.round hP hV hstands.2 round
      exact ⟨hat, hhere⟩
  | answered round =>
      obtain ⟨hat, hhere, hjustified⟩ := hstands.1.round hP hV hstands.2 round
      exact ⟨hat, hhere, hjustified _ rfl⟩
  | closed close =>
      obtain ⟨hat, hhere, hjustified⟩ := hstands
      exact close_spec hP hV hat hhere hgap hnonneg hgapTau htau hjustified close
  | returned after =>
      have hb : Between S view F tau run := hstands
      obtain ⟨rfl, hview⟩ := hP.afterNode after
      exact ⟨⟨hb.grown, hb.fits, hb.settled, hb.listeners, hb.onTree,
        hb.applied.trans (congrArg Except.ok hview.symm), hb.meets.afterNode after, hb.like,
        hb.incumbent⟩, hb.covered⟩
  | rested => exact hstands

theorem Reaches.stands (hP : Partners S view) (hV : Valid S view F)
    (hgap : S.config.gapTolerance = .finite gap) (hnonneg : 0 ≤ gap) (hgapTau : gap ≤ tau)
    (htau : 1 / 1000000 ≤ tau) {start : Run Extended Move σ} (hb : Between S view F tau start)
    {place : Place Extended} (hreached : Reaches S.problem S.config start place run) :
    Stands S view F tau place run := by
  induction hreached with
  | start => exact hb
  | step _ next ih => exact ih.advance hP hV hgap hnonneg hgapTau htau next

theorem between_start (hP : Partners S view) (queue : OpenQueue Extended) :
    Between S view F tau (Run.start S.problem queue S.separator S.listeners S.world) := by
  have htrail : (Run.start S.problem queue S.separator S.listeners S.world).trail =
      Trail.setOut ⟨Tree.root, []⟩ S.listeners := by
    show S.listeners.foldl Trail.addListener (Trail.start _) = _
    rw [Trail.foldl_addListener]
    rfl
  have hknown : Tree.root < (Tree.initial : Tree Extended Move).records.size := Nat.one_pos
  have hpending : ((Tree.initial : Tree Extended Move).node Tree.root).isPending = true := rfl
  refine ⟨⟨Tree.grown_initial, ?_, ?_, ?_, ?_, ?_, .start, .refl _, Or.inl ⟨rfl, rfl⟩⟩,
    fun T _ => Or.inl ⟨Tree.root, ?_, hpending, ?_, ?_⟩⟩
  · exact (OpenQueue.fits_clear queue _).add hknown (Tree.grown_initial.bounded _)
  · rw [htrail]
    exact ⟨rfl, Or.inl rfl⟩
  · rw [htrail]
    rfl
  · rw [htrail]
    exact ⟨Tree.root, hknown, rfl⟩
  · rw [htrail]
    exact congrArg Except.ok hP.empty.symm
  · exact (OpenQueue.waits_add hpending).mpr (Or.inl rfl)
  · intro d hd
    cases hd
  · show Extended.negInfinity ≤ .finite T.cost
    simp

structure Concluded (S : Setup σ) (F : Set Tour) (tau : Rat) (run : Run Extended Move σ) :
    Prop where
  incumbent : Incumbent S F run.tree run.incumbentValues
  lower_ne : run.tree.stats.lower ≠ .undefined
  lower_le : run.tree.stats.lower ≤ run.tree.stats.upper
  covered : ∀ T ∈ F, run.tree.stats.lower ≤ .finite T.cost ∨
    run.tree.stats.upper - .finite tau ≤ .finite T.cost
  empty : run.queue.isEmpty = true → ∀ T ∈ F,
    run.tree.stats.upper - .finite tau ≤ .finite T.cost

/-- The least open bound, or the upper bound if it is smaller, is known for every tour. -/
theorem Between.conclude (hb : Between S view F tau run) :
    Concluded S F tau { run with
      tree := run.tree.setLower
        (Scalar.smaller (run.queue.bestBound run.tree) run.tree.stats.upper) } := by
  obtain ⟨hbest, hbounds⟩ := hb.fits.bestBound_le hb.grown.bounded
  obtain ⟨hne, hleBest, hleUpper⟩ :=
    Extended.smaller_spec hbest hb.incumbent.upper_ne_undefined
  refine ⟨hb.incumbent.congr rfl rfl fun k hk => ⟨hk, rfl⟩, hne, hleUpper, fun T hT => ?_,
    fun hempty T hT => ?_⟩
  · rcases hb.covered T hT with ⟨k, ⟨e, he, rfl⟩, hpending, hholds⟩ | hcost
    · exact Or.inl (Extended.le_trans hleBest
        (Extended.le_trans (hbounds e he hpending) hholds.2))
    · exact Or.inr hcost
  · rcases hb.covered T hT with ⟨k, ⟨e, he, rfl⟩, -⟩ | hcost
    · rw [OpenQueue.isEmpty_iff.mp hempty] at he
      cases he
    · exact hcost

theorem gives_goHome {μ : Type} {p : Problem Extended μ σ} {run run' : Run Extended μ σ}
    (hgives : (Run.goHome p).Gives run () run') :
    run' = { run with trail := run'.trail, world := run'.world } := by
  simp only [Action.Gives, Action.runOn, Run.goHome] at hgives
  split at hgives
  · rw [Prod.mk.injEq] at hgives
    rw [← hgives.2]
  · rw [Prod.mk.injEq] at hgives
    rw [← hgives.2]

theorem complete_spec (hP : Partners S view) (hV : Valid S view F)
    (hgap : S.config.gapTolerance = .finite gap) (hnonneg : 0 ≤ gap) (hgapTau : gap ≤ tau)
    (htau : 1 / 1000000 ≤ tau) {steps : Nat} (hb : Between S view F tau run)
    {solution : Solution Extended}
    (hcomplete : run.complete S.problem S.config steps = (.ok solution, run')) :
    Concluded S F tau run' ∧ solution = run'.solution S.problem S.config := by
  obtain ⟨run₁, hended, hhome, hsolution⟩ := Reaches.complete hcomplete
  have hbetween : Between S view F tau run₁ := hended.stands hP hV hgap hnonneg hgapTau htau hb
  have hconcluded := hbetween.conclude
  refine ⟨?_, hsolution⟩
  rw [gives_goHome hhome]
  exact ⟨hconcluded.incumbent, hconcluded.lower_ne, hconcluded.lower_le, hconcluded.covered,
    hconcluded.empty⟩

/-! ### The result -/

theorem gap_finite {s : TreeStats Extended} {u l : Rat} (hupper : s.upper = .finite u)
    (hlower : s.lower = .finite l) :
    s.gap = if |u| < 1 / 10000000000 then
        if |l| < 1 / 10000000000 then .finite 0 else .infinity
      else .finite ((u - l) / |u|) := by
  have hresolution : (TreeStats.resolution : Extended) = .finite (1 / 10000000000) := by
    show Extended.finite (mkRat 1 10000000000) = _
    norm_num [Rat.mkRat_eq_div]
  simp only [TreeStats.gap, hupper, hlower, hresolution, Extended.scalar_infinity,
    Extended.scalar_negInfinity, Extended.scalar_zero, Extended.magnitude_finite,
    Extended.finite_lt_finite, Extended.finite_sub_finite, Extended.beq_iff, Extended.Same,
    Bool.or_eq_true, or_self, if_false]
  split
  · rfl
  · rename_i hlarge
    exact Extended.finite_div_finite (by rintro hzero; rw [hzero] at hlarge; norm_num at hlarge)

/-- A small gap bounds the distance of the two bounds. -/
theorem upper_le_of_gap_le {s : TreeStats Extended} {u : Rat} (hupper : s.upper = .finite u)
    (hne : s.lower ≠ .undefined) (hle : s.lower ≤ s.upper) (hgap : s.gap ≤ .finite gap) :
    .finite (u - max (1 / 1000000) (gap * |u|)) ≤ s.lower := by
  cases hlower : s.lower with
  | negInfinity => simp [TreeStats.gap, hlower, Extended.beq_iff, Extended.Same] at hgap
  | infinity => simp [hlower, hupper] at hle
  | undefined => exact absurd hlower hne
  | finite l =>
      rw [gap_finite hupper hlower] at hgap
      rw [Extended.finite_le_finite]
      split at hgap
      · rename_i hu
        split at hgap
        · rename_i hl
          have := le_max_left (1 / 1000000) (gap * |u|)
          have := (abs_lt.mp hu).2
          have := (abs_lt.mp hl).1
          linarith
        · simp at hgap
      · rename_i hu
        have hpos : 0 < |u| := by linarith
        rw [Extended.finite_le_finite, div_le_iff₀ hpos] at hgap
        have := le_max_right (1 / 1000000) (gap * |u|)
        linarith

def Setup.ofSolver (s : Solver Extended Move σ) (timeLimit : Option Extended)
    (nodeLimit : Option Int) : Setup σ :=
  ⟨s.problem, Solver.limited s.config timeLimit nodeLimit, s.separator, s.listeners, s.world⟩

theorem Incumbent.objective {p : Problem Extended Move σ} {config : SearchConfig Extended}
    {values : EdgeValues Extended}
    (hi : Incumbent S F run.tree values) :
    (run.solution p config).objective = run.tree.stats.upper := by
  rcases hi with ⟨hnone, hupper⟩ | ⟨k, T, -, hsome, -, hvalue, hupper, -⟩
  · simp [Run.solution, hnone, hupper]
  · simp [Run.solution, hsome, hvalue, hupper]

/-- The two ways to be done: nothing is open, or the gap is small. -/
theorem done_of_status {p : Problem Extended Move σ} {config : SearchConfig Extended}
    (hstatus : run.finalStatus p config = .optimal ∨ run.finalStatus p config = .infeasible) :
    (run.queue.isEmpty = true ∨ run.tree.stats.gap ≤ config.gapTolerance) ∧
      (run.finalStatus p config = .optimal ↔ run.tree.incumbent.isSome = true) := by
  unfold Run.finalStatus at hstatus ⊢
  split at hstatus
  · rename_i hdone
    rw [if_pos hdone]
    rw [Bool.or_eq_true, decide_eq_true_iff] at hdone
    refine ⟨hdone, ?_⟩
    split <;> simp_all
  · split at hstatus
    · simp at hstatus
    · split at hstatus
      · simp at hstatus
      · split at hstatus <;> simp at hstatus

theorem Concluded.of_optimal {p : Problem Extended Move σ} {config : SearchConfig Extended}
    (hc : Concluded S F tau run) (htau : 1 / 1000000 ≤ tau)
    (hgap : config.gapTolerance = .finite gap) (hstatus : run.finalStatus p config = .optimal) :
    ∃ T₀ ∈ F, run.tree.stats.upper = .finite T₀.cost ∧ ∀ T ∈ F,
      T₀.cost - max tau (gap * |T₀.cost|) ≤ T.cost ∧
        (run.queue.isEmpty = true → T₀.cost - tau ≤ T.cost) := by
  obtain ⟨hdone, hiff⟩ := done_of_status (Or.inl hstatus)
  rcases hc.incumbent with ⟨hnone, -⟩ | ⟨k, T₀, hT₀, -, -, -, hupper, -⟩
  · have := hiff.mp hstatus
    rw [hnone] at this
    cases this
  · have hwithin : ∀ T : Tour, run.tree.stats.upper - .finite tau ≤ .finite T.cost →
        T₀.cost - tau ≤ T.cost := by
      intro T hT
      rwa [hupper, Extended.finite_sub_finite, Extended.finite_le_finite] at hT
    have htauLe := le_max_left tau (gap * |T₀.cost|)
    refine ⟨T₀, hT₀, hupper, fun T hT => ⟨?_, fun hempty => hwithin T (hc.empty hempty T hT)⟩⟩
    rcases hdone with hempty | hsmall
    · linarith [hwithin T (hc.empty hempty T hT)]
    · rcases hc.covered T hT with hlower | hcost
      · rw [hgap] at hsmall
        have hle := Extended.le_trans
          (upper_le_of_gap_le hupper hc.lower_ne hc.lower_le hsmall) hlower
        rw [Extended.finite_le_finite] at hle
        linarith [max_le_max_right (gap * |T₀.cost|) htau]
      · linarith [hwithin T hcost]

theorem Concluded.of_infeasible {p : Problem Extended Move σ} {config : SearchConfig Extended}
    (hc : Concluded S F tau run) (hgap : config.gapTolerance = .finite gap)
    (hstatus : run.finalStatus p config = .infeasible) : F = ∅ := by
  obtain ⟨hdone, hiff⟩ := done_of_status (Or.inr hstatus)
  rcases hc.incumbent with ⟨-, hupper⟩ | ⟨k, T₀, -, hsome, -⟩
  · have hempty : run.queue.isEmpty = true := by
      rcases hdone with hempty | hsmall
      · exact hempty
      · simp [hgap, TreeStats.gap, hupper, Extended.beq_iff, Extended.Same] at hsmall
    refine Set.eq_empty_iff_forall_notMem.mpr fun T hT => ?_
    have hcost := hc.empty hempty T hT
    simp [hupper] at hcost
  · have hoptimal := hiff.mpr (by rw [hsome]; rfl)
    rw [hoptimal] at hstatus
    cases hstatus

/-- What a search returns is true of every tour. The lower bound holds up to a tolerance; an optimal
objective is the cost of a tour, and no tour is cheaper by more than the tolerance or the relative
gap, which only matters when nodes are left open; and a search without a solution has no tours. -/
theorem solve_sound {s s' : Solver Extended Move σ} {steps : Nat} {timeLimit : Option Extended}
    {nodeLimit : Option Int} (hP : Partners (.ofSolver s timeLimit nodeLimit) view)
    (hV : Valid (.ofSolver s timeLimit nodeLimit) view F)
    (hgap : s.config.gapTolerance = .finite gap) (hnonneg : 0 ≤ gap)
    {solution : Solution Extended}
    (hsolve : s.solve steps timeLimit nodeLimit = (.ok solution, run, s')) :
    (∀ T ∈ F, solution.lower - .finite (max gap (1 / 1000000)) ≤ .finite T.cost) ∧
      (solution.status = .optimal → ∃ T₀ ∈ F, solution.objective = .finite T₀.cost ∧ ∀ T ∈ F,
        T₀.cost - max (max gap (1 / 1000000)) (gap * |T₀.cost|) ≤ T.cost ∧
          (run.queue.isEmpty = true → T₀.cost - max gap (1 / 1000000) ≤ T.cost)) ∧
      (solution.status = .infeasible → F = ∅) := by
  have htau := le_max_right gap (1 / 1000000)
  have hgap' : (Setup.ofSolver s timeLimit nodeLimit).config.gapTolerance = .finite gap := hgap
  have hcomplete : (Run.start s.problem s.queue s.separator s.listeners s.world).complete s.problem
      (Solver.limited s.config timeLimit nodeLimit) steps = (.ok solution, run) := by
    simp only [Solver.solve, Prod.mk.injEq] at hsolve
    exact Prod.ext hsolve.1 hsolve.2.1
  obtain ⟨hconcluded, rfl⟩ := complete_spec hP hV hgap' hnonneg (le_max_left gap (1 / 1000000)) htau
    (between_start hP s.queue) hcomplete
  refine ⟨fun T hT => ?_, fun hstatus => ?_, hconcluded.of_infeasible hgap'⟩
  · rcases hconcluded.covered T hT with hlower | hcost
    · have hpos : 0 ≤ max gap (1 / 1000000) := le_max_of_le_left hnonneg
      exact Extended.le_trans (Extended.sub_finite_le hconcluded.lower_ne hpos) hlower
    · exact Extended.le_trans
        (Extended.sub_finite_le_sub_finite hconcluded.lower_le _) hcost
  · rw [hconcluded.incumbent.objective]
    exact hconcluded.of_optimal htau hgap' hstatus

/-- A triangle whose relaxation is fractional on one edge until it is decided. -/
def triangleRules : List (ScriptRule Extended) :=
  [⟨[[.int 0, .int 1]], [], 0, 0, .finite 1, .solved (.finite 3)
      ⟨[([.int 0, .int 1], .finite 1), ([.int 1, .int 2], .finite 1),
        ([.int 0, .int 2], .finite 1)]⟩⟩,
    ⟨[], [[.int 0, .int 1]], 0, 0, .finite 1, .infeasible⟩,
    ⟨[], [], 0, 0, .finite 1, .solved (.finite 2)
      ⟨[([.int 0, .int 1], .finite (1 / 2)), ([.int 1, .int 2], .finite 1),
        ([.int 0, .int 2], .finite 1)]⟩⟩]

def triangleSolver : Solver Extended Move (Stage Extended) where
  problem := Script.problem ⟨triangleRules, .dedupe, []⟩ (.edges ⟨Scalar.ratio 1 1000000, 20⟩)
  config := { SearchConfig.standard with maxCutRounds := 0 }
  queue := OpenQueue.empty .bestFirst
  separator := Separator.ofGraph (Graph.build .simple []
    [(.int 0, .int 1, none), (.int 1, .int 2, none), (.int 0, .int 2, none)]) .dinitz
  listeners := []
  world := Stage.initial Watch.empty
  solution := none

def triangleTour : Tour :=
  ⟨{Edge.key [.int 0, .int 1], Edge.key [.int 1, .int 2], Edge.key [.int 0, .int 2]}, 3⟩

theorem valid_triangle :
    Valid (.ofSolver triangleSolver none none) Stage.restrictions {triangleTour} := by
  -- Every answer comes from one of the three rules.
  have hanswer : ∀ {w w' : Stage Extended} {answer : Answer Extended},
      (Script.solve ⟨triangleRules, .dedupe, []⟩).Gives w answer w' →
      (∃ rule ∈ triangleRules, Script.applies w rule = true ∧
        Script.answer rule.answer = .ok answer) := by
    intro w w' answer h
    simp only [Action.Gives, Action.runOn, Script.solve] at h
    split at h
    · rename_i hnone
      exact absurd (List.find?_eq_none.mp hnone _ (List.mem_cons_of_mem _
        (List.mem_cons_of_mem _ List.mem_cons_self))) (by simp [Script.applies])
    · rename_i rule hrule
      rw [Prod.mk.injEq] at h
      exact ⟨rule, List.mem_of_find?_eq_some hrule, (List.find?_some hrule :), h.1⟩
  refine ⟨fun {w w'} _ h => ?_, fun {w w' z values} _ h _ T hT _ => ?_,
    fun {z values} haccepted => ?_⟩
  · obtain ⟨rule, hrule, happlies, hsame⟩ := hanswer h
    simp only [triangleRules, List.mem_cons, List.not_mem_nil, or_false] at hrule
    rcases hrule with rfl | rfl | rfl
    · cases hsame
    · rintro T rfl hallows
      simp [Script.applies, Restrictions.isForbidden] at happlies
      exact hallows.2 _ happlies (Or.inl rfl)
    · cases hsame
  · obtain ⟨rule, hrule, -, hsame⟩ := hanswer h
    rw [Set.mem_singleton_iff] at hT
    simp only [triangleRules, List.mem_cons, List.not_mem_nil, or_false] at hrule
    rcases hrule with rfl | rfl | rfl
    · cases hsame
      simp [hT, triangleTour]
    · cases hsame
    · cases hsame
      norm_num [hT, triangleTour]
  · obtain ⟨w, w', -, h⟩ := haccepted.answer
    obtain ⟨rule, hrule, -, hsame⟩ := hanswer h
    simp only [triangleRules, List.mem_cons, List.not_mem_nil, or_false] at hrule
    rcases hrule with rfl | rfl | rfl
    · cases hsame
      exact ⟨triangleTour, rfl, rfl⟩
    · cases hsame
    · cases hsame
      exact absurd haccepted.integral (by decide +kernel)

/-- The search branches once and returns the tour. -/
theorem solve_sound_triangle :
    ∃ solution, (triangleSolver.solve 10 none none).1 = .ok solution ∧
      solution.status = .optimal ∧ solution.objective = .finite 3 := by
  have hstatus : (triangleSolver.solve 10 none none).1.toOption.map (·.status) = some .optimal := by
    decide +kernel
  rcases hsolve : triangleSolver.solve 10 none none with ⟨_ | solution, run, s'⟩
  · simp [hsolve, Except.toOption] at hstatus
  · have hoptimal : solution.status = .optimal := by
      simpa [hsolve, Except.toOption] using hstatus
    have hpartners : Partners (.ofSolver triangleSolver none none) Stage.restrictions :=
      partners_script triangleRules .dedupe triangleSolver.config triangleSolver.separator [] rfl
    obtain ⟨T₀, hT₀, hobjective, -⟩ := (solve_sound hpartners valid_triangle
      Extended.scalar_millionth (by norm_num) hsolve).2.1 hoptimal
    rw [Set.mem_singleton_iff] at hT₀
    exact ⟨solution, rfl, hoptimal, by rw [hobjective, hT₀]; rfl⟩

end Search

end TourSearch
