import TourSearch.Proofs.Restrictions.Strictness
import TourSearch.Proofs.Search.Termination
import TourSearch.Proofs.Tour.Validity
import Mathlib

/-!
A search over the tours of an instance comes to its end. Whatever method solves its programs, the
relaxation is a partner as searches on edges need it (`cooperates_problem`), and exact solutions
keep to the restrictions (`Found.respects`); so the decisions on a path are about different pairs of
cities, can always be applied, and are no more than there are pairs. A cut that an exact solution
violates is not stored yet, so every round of cuts adds a new set of cities. No step fails, and the
number of steps is bounded (`Fair.ends`).
-/

namespace TourSearch

open Numeric

namespace Instance

def pairKeys (t : Instance Extended) : Finset VertexSet :=
  (t.pairs.map fun p => (edge p.1 p.2).key).toFinset

theorem mem_pairKeys {t : Instance Extended} {p : Nat × Nat} (hp : p ∈ t.pairs) :
    (edge p.1 p.2).key ∈ t.pairKeys :=
  List.mem_toFinset.mpr (List.mem_map_of_mem hp)

theorem card_pairKeys_le (t : Instance Extended) : t.pairKeys.card ≤ t.pairs.length :=
  (List.toFinset_card_le _).trans_eq (List.length_map _)

theorem length_pairs_lt {t : Instance Extended} (hn : 3 ≤ t.cityCount) :
    t.pairs.length + 1 ≤ t.cityCount * t.cityCount := by
  have hnodup : ((0, 0) :: t.pairs).Nodup :=
    List.nodup_cons.mpr ⟨fun h => absurd (mem_pairs.mp h).1 (Nat.lt_irrefl 0), t.nodup_pairs⟩
  have hsub : ((0, 0) :: t.pairs) ⊆ List.range t.cityCount ×ˢ List.range t.cityCount := by
    rintro ⟨i, j⟩ hp
    rw [List.mem_product, List.mem_range, List.mem_range]
    rcases List.mem_cons.mp hp with heq | hp
    · obtain ⟨rfl, rfl⟩ := Prod.mk.inj heq
      exact ⟨by omega, by omega⟩
    · obtain ⟨hlt, hle⟩ := mem_pairs.mp hp
      exact ⟨hlt.trans hle, hle⟩
  have hle := hnodup.length_le_of_subset hsub
  rwa [List.length_cons, List.length_product, List.length_range] at hle

end Instance

theorem Restrictions.attainable_of_applyAll {path : List (Decision Move)} {r r' : Restrictions}
    (hr : r.Attainable) (hpath : Trail.applyAll Trail.moveAct path r = .ok r') : r'.Attainable := by
  induction path generalizing r with
  | nil => exact Except.ok.inj hpath ▸ hr
  | cons d path ih =>
      obtain ⟨r₁, hd, hrest⟩ := except_bind_eq_ok.mp hpath
      exact ih (hr.change hd) hrest

namespace TourRelaxation

variable {method : Linear.Program → Option (List Rat)} {t : Instance Extended}
  {c : Nat → Nat → Rat} {r r' : TourRelaxation Extended} {x : Nat × Nat → Rat}

theorem Found.respects (hx : r.Found x) (hapart : r.restrictions.Apart) :
    Search.Respects r.tours.pairKeys (.finite (1 / 1000000)) r.restrictions
      (r.valuesOf (r.tours.pairs.map x)) := by
  have hentry : ∀ entry ∈ (r.valuesOf (r.tours.pairs.map x)).entries, ∃ p ∈ r.tours.pairs,
      0 < x p ∧ entry = (Instance.edge p.1 p.2, .finite (x p)) := by
    intro entry hmem
    rw [hx.coarse.valuesOf_eq] at hmem
    obtain ⟨p, hp, rfl⟩ := List.mem_map.mp hmem
    obtain ⟨hp, hpos⟩ := List.mem_filter.mp hp
    exact ⟨p, hp, of_decide_eq_true hpos, rfl⟩
  refine ⟨fun entry hmem => ?_, fun entry hmem hfixed => ?_, fun entry hmem hforbidden => ?_⟩
  · obtain ⟨p, hp, -, rfl⟩ := hentry entry hmem
    exact Instance.mem_pairKeys hp
  · obtain ⟨p, hp, -, rfl⟩ := hentry entry hmem
    have hlower : r.lower p = 1 := by
      simp [lower, Restrictions.bounds, Restrictions.isFixed, hfixed]
    have hone : x p = 1 := le_antisymm (hx.le_one hp) (hlower ▸ (hx.bounds p hp).1)
    rw [hone, Extended.finite_sub_finite, Extended.magnitude_finite, Extended.finite_le_finite]
    norm_num
  · obtain ⟨p, hp, hpos, rfl⟩ := hentry entry hmem
    have hfree : (Instance.edge p.1 p.2).key ∉ r.restrictions.fixed :=
      fun hfixed => hapart _ hfixed hforbidden
    have hupper : r.upper p = 0 := by
      simp [upper, Restrictions.bounds, Restrictions.isFixed, Restrictions.isForbidden, hfree,
        hforbidden]
    exact absurd hpos (not_lt.mpr (hupper ▸ (hx.bounds p hp).2))

/-- Different proper sets of cities are as many as there are sets. -/
theorem Intact.length_cuts_le (hr : Intact t r) : r.cuts.length ≤ 2 ^ t.cityCount := by
  have hvertices : t.graph.vertices.length = t.cityCount := by
    rw [Instance.graph, Instance.vertices_complete, List.length_map, List.length_range]
  have hcard : (r.cuts.map (·.side)).toFinset.card = r.cuts.length := by
    rw [List.toFinset_card_of_nodup hr.different, List.length_map]
  rw [← hcard, ← hvertices]
  refine card_sets_le fun side hside => ?_
  obtain ⟨cut, hcut, rfl⟩ := List.mem_map.mp (List.mem_toFinset.mp hside)
  exact (hr.proper cut hcut).subset

/-! ### The relaxation serves a search -/

theorem obliges_perform :
    Trail.Obliges (perform (α := Extended)) TourRelaxation.restrictions Trail.moveAct where
  act_ok := by
    intro a d s after hact
    have hact' : Move.act a d.move s.restrictions = .ok after := hact
    simp only [perform, act, Action.runOn, hact', bind, Except.bind, pure, Except.pure]
  notify_ok := fun _ _ _ _ => rfl

def sides (r : TourRelaxation Extended) : Finset VertexSet := (r.cuts.map (·.side)).toFinset

/-- Every cut that is stored brings a new set. -/
theorem card_sides_foldl (all : VertexSet) (cuts stored : List (Cut Extended)) :
    ((cuts.foldl (store all) stored).map (·.side)).toFinset.card + stored.length =
      (stored.map (·.side)).toFinset.card + (cuts.foldl (store all) stored).length := by
  refine List.foldlRecOn
    (motive := fun after => (after.map (·.side)).toFinset.card + stored.length =
      (stored.map (·.side)).toFinset.card + after.length) cuts (store all) rfl ?_
  intro after hafter cut _
  rcases store_cases all after cut with ⟨-, hsame⟩ | ⟨hnew, happended⟩
  · rwa [hsame]
  · have hnotMem : cut.side ∉ (after.map (·.side)).toFinset :=
      fun hmem => notMem_of_not_describes hnew (List.mem_toFinset.mp hmem)
    have hinsert : ((after ++ [cut]).map (·.side)).toFinset =
        insert cut.side (after.map (·.side)).toFinset := by
      ext side
      simp
    rw [happended, hinsert, Finset.card_insert_of_notMem hnotMem, List.length_append,
      List.length_singleton]
    omega

theorem storesOnce_problem (method : Linear.Program → Option (List Rat)) :
    Search.StoresOnce (problem method : Problem Extended Move _) sides where
  kept := by
    intro cuts r count r' hgives side hside
    obtain ⟨rfl, -⟩ := gives_addCuts hgives
    obtain ⟨added, heq, -⟩ := foldl_store r.allCities cuts r.cuts
    simp only [sides, heq, List.map_append, List.toFinset_append, Finset.mem_union]
    exact Or.inl hside
  offered := by
    intro cuts r count r' hgives side hside
    obtain ⟨rfl, -⟩ := gives_addCuts hgives
    obtain ⟨added, heq, hsub⟩ := foldl_store r.allCities cuts r.cuts
    simp only [sides, heq, List.map_append, List.toFinset_append, Finset.mem_union] at hside
    refine hside.imp_right fun hadded => ?_
    obtain ⟨cut, hcut, rfl⟩ := List.mem_map.mp (List.mem_toFinset.mp hadded)
    exact ⟨cut, hsub.subset hcut, rfl⟩
  counted := by
    intro cuts r count r' hgives
    obtain ⟨rfl, hlength⟩ := gives_addCuts hgives
    have hcard := card_sides_foldl r.allCities cuts r.cuts
    simp only [sides] at hlength ⊢
    omega
  solve := by
    intro r
    exact congrArg (fun after => after.2.sides) (solveBy_eq method r)

/-- The relaxation of tours serves a search on edges as it should, whatever method solves its
programs. -/
theorem cooperates_problem (method : Linear.Program → Option (List Rat)) :
    Search.Cooperates (problem method : Problem Extended Move _) (Scalar.ratio 1 1000000)
      TourRelaxation.restrictions sides where
  bystanders :=
    { acts := actsOn_perform
      solve := by
        intro r
        exact congrArg (fun after => after.2.restrictions) (solveBy_eq method r)
      addCuts := fun _ _ => rfl
      candidates := fun _ _ _ => rfl
      afterNode := fun _ _ => rfl }
  obliges := obliges_perform
  branching := fun _ _ _ => rfl
  keepsTree := fun after => (congrArg (fun result => result.2.1) after).symm
  stores := storesOnce_problem method
  solve_fails := fun failed => by cases failed
  addCuts_fails := fun failed => by cases failed
  afterNode_fails := fun failed => by cases failed

/-- The cuts that an exact solution violates are new. -/
theorem Found.gives_addCuts (hx : r.Found x) {cuts : List (Cut Extended)}
    (hseparates : Separator.Separates r.tours.graph.vertices
      ((r.valuesOf (r.tours.pairs.map x)).leaving .simple) cuts) (hviolated : cuts ≠ []) :
    ∃ count r', 0 < count ∧ ((problem method : Problem Extended Move _).addCuts cuts).Gives r count
      r' := by
  refine ⟨_, _, ?_, show _ = (Except.ok (r.addCuts cuts).1, (r.addCuts cuts).2) from rfl⟩
  refine addCuts_pos hviolated fun cut hcut => hx.describes_eq_false ?_
  exact (hseparates.violated cut hcut).2.2.trans (by norm_num)

end TourRelaxation

/-! ### A search over tours -/

def Search.Setup.solver {σ : Type} (S : Search.Setup σ) (queue : OpenQueue Extended) :
    Solver Extended Move σ :=
  ⟨S.problem, S.config, queue, S.separator, S.listeners, S.world, none⟩

namespace TourRelaxation

open Search

variable {method : Linear.Program → Option (List Rat)} {t : Instance Extended}
  {c : Nat → Nat → Rat} {config : SearchConfig Extended} {flow : FlowMethod}
  {queue : OpenQueue Extended} {place place' : Place Extended}
  {run run' : Run Extended Move (TourRelaxation Extended)} {r : TourRelaxation Extended}

theorem Found.solved {x : Nat × Nat → Rat} (hx : r.Found x) (bounds : Option (List (Nat × Nat)))
    (solves : Nat) : Found { r with bounds, solves } x :=
  ⟨⟨hx.bounds, hx.degree, hx.cuts⟩, hx.whole⟩

/-- A search over the tours of an instance with finite costs. Its linear programs are solved
exactly, and it is not stopped by a limit. -/
structure Fair (method : Linear.Program → Option (List Rat)) (t : Instance Extended)
    (c : Nat → Nat → Rat) (config : SearchConfig Extended) (flow : FlowMethod) : Prop where
  priced : t.Priced c
  exact : Exact method (setup method t config flow)
  cuts : 1 ≤ config.maxCutsPerRound
  tolerance : config.integralityTolerance = Scalar.ratio 1 1000000
  gap : config.gapTolerance = Scalar.ratio 1 1000000
  frequency : config.logFrequency ≠ 0
  untimed : ¬config.maxTime ≤ .finite 0
  unlimited : config.maxNodes = 0

/-- What is known of a search where it stands, besides what is known of every search: a node was not
solved more often than there are cuts, its answer is an exact solution, and at the end no node is
open. -/
def Ready : Place Extended → Run Extended Move (TourRelaxation Extended) → Prop
  | .solving _ rounds, run => rounds ≤ run.world.cuts.length
  | .closing _ (.solved _ values), run =>
      ∃ x, run.world.Found x ∧ values = run.world.valuesOf (run.world.tours.pairs.map x)
  | .ended, run => run.queue.isEmpty = true
  | _, _ => True

namespace Fair

theorem partners (hfair : Fair method t c config flow) :
    Partners (setup method t config flow) TourRelaxation.restrictions :=
  TourRelaxation.partners method t flow hfair.tolerance

theorem valid (hfair : Fair method t c config flow) :
    Valid (setup method t config flow) TourRelaxation.restrictions (tourSet t c) :=
  hfair.exact.valid hfair.priced hfair.cuts hfair.tolerance

theorem intact (hfair : Fair method t c config flow)
    (hmeets : Meets (setup method t config flow) r) :
    Intact t r := hfair.exact.intact hfair.priced hfair.cuts hmeets

theorem solve (hfair : Fair method t c config flow) (hmeets : Meets (setup method t config flow) r)
    {answer : Answer Extended} {r' : TourRelaxation Extended}
    (hsolve : (problem method : Problem Extended Move _).solve.Gives r answer r') :
    r' = { r with bounds := some r.currentBounds, solves := r.solves + 1 } ∧ Settled r c answer :=
  ⟨(hfair.intact hmeets).gives_solve hsolve,
    (hfair.intact hmeets).settled hfair.priced (hfair.exact.solves hfair.priced hmeets) hsolve⟩

theorem stands (hfair : Fair method t c config flow)
    (hreached : Reaches (problem method) config
      (outset ((setup method t config flow).solver queue)) place run) :
    Stands (setup method t config flow) TourRelaxation.restrictions (tourSet t c) (1 / 1000000)
      place run :=
  Reaches.stands hfair.partners hfair.valid (hfair.gap.trans Extended.scalar_millionth)
    (by norm_num) le_rfl le_rfl (between_start hfair.partners queue) hreached

/-- The clock stands still, so no limit is ever reached. -/
theorem limitReached_eq (hfair : Fair method t c config flow)
    (hreached : Reaches (problem method) config
      (outset ((setup method t config flow).solver queue)) place run) :
    run.limitReached (problem method) config = false := by
  have helapsed : run.elapsed (problem method) = .finite 0 := by
    show Scalar.zero - run.started = _
    rw [hreached.started_eq]
    show Extended.finite 0 - Extended.finite 0 = _
    rw [Extended.finite_sub_finite, sub_zero]
  simp [Run.limitReached, helapsed, hfair.untimed, hfair.unlimited]

theorem cooperates (hfair : Fair method t c config flow) :
    Cooperates (problem method) config.integralityTolerance TourRelaxation.restrictions sides :=
  hfair.tolerance ▸ cooperates_problem method

/-- The restrictions at a node come from the decisions of its path, so that no pair is fixed and
forbidden. -/
theorem answersRespect (hfair : Fair method t c config flow) :
    AnswersRespect ((setup method t config flow).solver queue) config TourRelaxation.restrictions
      t.pairKeys := by
  intro h rounds run z values w hreached hsolved
  have hat := (hfair.stands hreached).1
  have hintact := hfair.intact hat.meets
  have hapart := (Restrictions.attainable_of_applyAll .empty hat.applied).apart
  obtain ⟨-, hsettled⟩ := hfair.solve hat.meets hsolved
  rw [hfair.tolerance, Extended.scalar_millionth, ← hintact.tours]
  cases hsettled with
  | solved optimal => exact optimal.toFound.respects hapart

theorem orderly (hfair : Fair method t c config flow)
    (hreached : Reaches (problem method) config (outset ((setup method t config flow).solver queue))
      place run) (h : Handle) : Orderly t.pairKeys (run.tree.node h).decisions :=
  Reaches.orderly hfair.cooperates rfl hfair.answersRespect hreached h

/-- The answers that end the rounds at a node are exact. -/
theorem exact_of_rounds (hfair : Fair method t c config flow)
    (hmeets : Meets (setup method t config flow) run.world) {rounds : Int} {z : Extended}
    {values : EdgeValues Extended}
    (hrounds : Rounds (problem method) config rounds run run' (some (.solved z values))) :
    ∃ x, run'.world.Found x ∧ values = run'.world.valuesOf (run'.world.tours.pairs.map x) := by
  have hsolved : (problem method).solve.Gives run.world (.solved z values) run'.world := by
    cases hrounds with
    | hopeless solved => exact solved
    | uncut solved => exact solved
    | last solved => exact solved
  obtain ⟨hworld, hsettled⟩ := hfair.solve hmeets hsolved
  rw [hworld]
  cases hsettled with
  | solved optimal => exact ⟨_, optimal.toFound.solved _ _, rfl⟩

/-- Another round is made after a new cut was stored. -/
theorem length_cuts_of_rounds (hfair : Fair method t c config flow)
    (hmeets : Meets (setup method t config flow) run.world) {rounds : Int}
    (hrounds : Rounds (problem method) config rounds run run' none) :
    run.world.cuts.length < run'.world.cuts.length := by
  cases hrounds with
  | again solved _ _ taken added =>
      obtain ⟨rfl, -⟩ := hfair.solve hmeets solved
      have hlength : run'.world.cuts.length = run.world.cuts.length + _ := (gives_addCuts added).2
      omega

theorem ready_advance (hfair : Fair method t c config flow)
    (hreached : Reaches (problem method) config
      (outset ((setup method t config flow).solver queue)) place run)
    (hready : Ready place run)
    (next : (advance (problem method) config place).Gives run place' run') : Ready place' run' := by
  have hstands := hfair.stands hreached
  cases moves_of_gives next with
  | done finished => rwa [hfair.limitReached_eq hreached, Bool.or_false] at finished
  | drained popped =>
      have hbetween : Between _ _ _ _ run := hstands
      exact OpenQueue.isEmpty_iff.mpr (hbetween.fits.pop_none popped).2.1
  | taken => trivial
  | moved => exact Nat.zero_le _
  | again round =>
      obtain ⟨-, -, hrounds⟩ := rounds_of_gives round
      exact Nat.lt_of_le_of_lt hready (hfair.length_cuts_of_rounds hstands.1.meets hrounds)
  | @answered _ _ _ _ answer round =>
      obtain ⟨-, -, hrounds⟩ := rounds_of_gives round
      cases answer with
      | infeasible => trivial
      | solved z values => exact hfair.exact_of_rounds hstands.1.meets hrounds
  | closed => trivial
  | returned => trivial
  | rested => exact hready

theorem ready (hfair : Fair method t c config flow)
    (hreached : Reaches (problem method) config (outset ((setup method t config flow).solver queue))
      place run) : Ready place run := by
  induction hreached with
  | start => trivial
  | step before next ih => exact hfair.ready_advance before ih next

/-- What the relaxation answers can be separated and tested, and of violated cuts one is new. -/
theorem serves (hfair : Fair method t c config flow)
    (hmeets : Meets (setup method t config flow) r) {s : Separator Extended}
    (hlike : s.Like (Separator.ofGraph t.graph flow)) {z : Extended} {values : EdgeValues Extended}
    {r' : TourRelaxation Extended}
    (hsolve : (problem method : Problem Extended Move _).solve.Gives r (.solved z values) r') :
    Serves (problem method : Problem Extended Move _) config s values r' := by
  obtain ⟨rfl, hsettled⟩ := hfair.solve hmeets hsolve
  have hgraph : s.graph.IsOf r.tours.graph := by
    rw [(hfair.intact hmeets).tours]
    exact isOf_ofGraph_like hlike
  cases hsettled with
  | solved optimal =>
      have hfound := optimal.toFound
      obtain ⟨integral, hintegral, -⟩ := integralEntries_finite hfound.coarse.finite
      obtain ⟨cuts, hcuts, hseparates⟩ := hfound.separated hfair.cuts hgraph
      exact ⟨⟨integral, hintegral⟩, cuts, hcuts, fun hviolated =>
        (hfound.solved _ _).gives_addCuts hseparates hviolated⟩

theorem safe (hfair : Fair method t c config flow)
    (hreached : Reaches (problem method) config
      (outset ((setup method t config flow).solver queue)) place run) :
    (advance (problem method) config place).Safe run := by
  have hstands := hfair.stands hreached
  have hready := hfair.ready hreached
  cases place with
  | between => exact safe_between hfair.frequency
  | moving h =>
      obtain ⟨r, hpath⟩ := (hfair.orderly hreached h).applicable
      exact (At.safe_goTo hfair.partners obliges_perform hstands hpath).bind fun _ _ _ =>
        Action.safe_pure _ _
  | solving h rounds =>
      have hat := hstands.1
      have hsolve : (problem method).solve.Safe run.world := Action.Gives.safe rfl
      refine (Action.safe_get run).bind fun _ _ hget => ?_
      obtain ⟨rfl, rfl⟩ := Action.gives_get.mp hget
      refine (safe_cutRound hsolve (hfair.serves hat.meets hat.like) _ _).bind fun answer _ _ => ?_
      cases answer with
      | none => exact Action.safe_pure _ _
      | some answer => exact Action.safe_pure _ _
  | closing h answer =>
      have hfinite : ∀ {z values}, answer = .solved z values → values.Finite := by
        rintro z values rfl
        obtain ⟨x, hx, rfl⟩ := hready
        exact hx.coarse.finite
      refine (safe_close (fun hanswer => ?_) fun hanswer n w => ?_).bind fun _ _ _ =>
        Action.safe_pure _ _
      · obtain ⟨integral, hintegral, -⟩ := integralEntries_finite (hfinite hanswer)
        exact ⟨integral, hintegral⟩
      · obtain ⟨cs, hcs⟩ := EdgeBranching.candidates_finite (hfinite hanswer)
        exact Action.Gives.safe (congrArg (·, w) hcs)
  | closed h =>
      refine Action.Safe.bind (Action.Safe.zoom ?_) fun _ _ _ => Action.safe_pure _ _
      exact Action.Gives.safe rfl
  | ended => exact Action.safe_pure _ _

theorem ends (hfair : Fair method t c config flow) (queue : OpenQueue Extended) :
    ∃ run, (Run.exploreAll (problem method) config (stepBound t.cityCount)
        (stepBound t.cityCount)).Gives (outset ((setup method t config flow).solver queue)) () run ∧
      Reaches (problem method) config (outset ((setup method t config flow).solver queue))
        .ended run ∧
      run.queue.isEmpty = true := by
  have hlarge := hfair.priced.large
  have hrounds : ∀ {h rounds run}, Reaches (problem method) config
      (outset ((setup method t config flow).solver queue)) (.solving h rounds) run →
      rounds < stepBound t.cityCount := by
    -- There are at most as many rounds as cuts, and fewer cuts than sets of cities.
    intro h rounds run hreached
    have hat := (hfair.stands hreached).1
    have hsquare : t.cityCount < t.cityCount * t.cityCount := by nlinarith
    calc rounds
        ≤ run.world.cuts.length := hfair.ready hreached
      _ ≤ 2 ^ t.cityCount := (hfair.intact hat.meets).length_cuts_le
      _ < 2 ^ (t.cityCount * t.cityCount) := Nat.pow_lt_pow_right one_lt_two hsquare
  have hnodes : ∀ {run}, Reaches (problem method) config
      (outset ((setup method t config flow).solver queue)) .between run →
      run.explored < 0 + stepBound t.cityCount := by
    intro run hreached
    have hspends : run.explored + _ < 2 ^ (t.pairKeys.card + 1) :=
      Reaches.spends hfair.cooperates rfl hfair.answersRespect hreached
    have hpairs : t.pairKeys.card + 1 ≤ t.cityCount * t.cityCount :=
      (Nat.succ_le_succ t.card_pairKeys_le).trans (Instance.length_pairs_lt hlarge)
    calc run.explored
        < 2 ^ (t.pairKeys.card + 1) := Nat.lt_of_le_of_lt (Nat.le_add_right _ _) hspends
      _ ≤ 2 ^ (t.cityCount * t.cityCount) := Nat.pow_le_pow_right two_pos hpairs
      _ = 0 + stepBound t.cityCount := (Nat.zero_add _).symm
  obtain ⟨run, hgives, hended⟩ := exists_ended (fun hreached => hfair.safe hreached) hrounds hnodes
  exact ⟨run, hgives, hended, hfair.ready hended⟩

end Fair

end TourRelaxation

end TourSearch
