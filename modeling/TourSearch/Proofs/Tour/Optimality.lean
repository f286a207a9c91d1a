import TourSearch.Proofs.Tour.Polytope
import TourSearch.Proofs.Tour.Termination
import Mathlib

/-!
Shortest tours. A search over the tours of an instance that no limit stops has a result, and no node
is open then (`Fair.completes`); so its incumbent is a tour through all cities, and no other tour is
shorter by more than the tolerance of the search (`Fair.optimal`). The tour solver puts such a
search together from the table of costs and its settings, and reads the tour off the result
(`Instance.solveBy_optimal`).
-/

namespace TourSearch

open Numeric

/-! ### The result of a search -/

namespace TourRelaxation

open Search

variable {method : Linear.Program → Option (List Rat)} {t : Instance Extended}
  {c : Nat → Nat → Rat} {config : SearchConfig Extended} {flow : FlowMethod}
  {queue : OpenQueue Extended}

theorem mem_tourSet {tour : List Nat} (h : tour.Perm (List.range t.cityCount)) :
    Closed.tour c t.cityCount (around tour) ∈ tourSet t c := ⟨_, closed_around h, rfl⟩

theorem Fair.completes (hfair : Fair method t c config flow) (queue : OpenQueue Extended) :
    ∃ solution run, (outset ((setup method t config flow).solver queue)).complete
        (problem method) config (stepBound t.cityCount) = (.ok solution, run) ∧
      run.queue.isEmpty = true := by
  obtain ⟨run, hexplored, hended, hempty⟩ := hfair.ends queue
  have hbetween : Between _ _ _ _ run := hfair.stands hended
  obtain ⟨solution, home, hcomplete, hqueue⟩ :=
    hbetween.exists_complete hfair.partners obliges_perform hexplored
  exact ⟨solution, home, hcomplete, hqueue ▸ hempty⟩

/-- When no node is open, the incumbent is a tour, and no tour is shorter by more than the
tolerance. -/
theorem Fair.optimal (hfair : Fair method t c config flow) {solution : Solution Extended}
    {run : Run Extended Move (TourRelaxation Extended)} {steps : Nat}
    (hcomplete : (outset ((setup method t config flow).solver queue)).complete
      (problem method) config steps = (.ok solution, run)) (hempty : run.queue.isEmpty = true) :
    solution.status = .optimal ∧ ∃ tour, extractTour solution.values t.cityCount = .ok tour ∧
      tour.Perm (List.range t.cityCount) ∧ tour.head? = some 0 ∧
      ∀ other, other.Perm (List.range t.cityCount) →
        (Closed.tour c t.cityCount (around tour)).cost ≤
          (Closed.tour c t.cityCount (around other)).cost + 1 / 1000000 := by
  obtain ⟨hconcluded, rfl⟩ := complete_spec hfair.partners hfair.valid
    (hfair.gap.trans Extended.scalar_millionth) (by norm_num) le_rfl le_rfl
    (between_start hfair.partners queue) hcomplete
  rcases hconcluded.incumbent with ⟨-, hupper⟩ | ⟨k, T₀, -, hsome, -, -, hupper, haccepted⟩
  · -- Without an incumbent there would be no tours.
    have hnone := hconcluded.empty hempty _ (mem_tourSet (.refl _))
    simp [hupper] at hnone
  · refine ⟨?_, ?_⟩
    · show run.finalStatus (problem method) config = .optimal
      simp [Run.finalStatus, hempty, hsome]
    · obtain ⟨tour, hextract, hperm, hhead, hcost⟩ :=
        hfair.exact.tour_of_accepted hfair.priced hfair.cuts hfair.tolerance haccepted
      refine ⟨tour, hextract, hperm, hhead, fun other hother => ?_⟩
      have hbound := hconcluded.empty hempty _ (mem_tourSet hother)
      rw [hupper, Extended.finite_sub_finite, Extended.finite_le_finite] at hbound
      rw [← Extended.finite.inj hcost]
      linarith

end TourRelaxation

/-! ### The tour solver -/

namespace Instance

/-- The finite costs between cities; 0 where there is none. -/
def exactCost (t : Instance Extended) (i j : Nat) : Rat :=
  if i < t.cityCount ∧ j < t.cityCount then
    match t.costBetween i j with
    | .ok (.finite q) => q
    | _ => 0
  else 0

theorem placed_of_lt {β : Type} {l : List β} {i : Nat} (hi : i < l.length) :
    placed l (i : Int) = .ok l[i] := by
  have hpos : ¬(i : Int) < 0 := by omega
  simp [placed, hpos, hi]

theorem priced_exactCost {costs : List (List Extended)} {name : String} {t : Instance Extended}
    (hmake : make costs name = .ok t)
    (hfinite : ∀ row ∈ costs, ∀ x ∈ row, ∃ q : Rat, x = .finite q)
    (hsymm : ∀ i < t.cityCount, ∀ j < t.cityCount, t.costBetween i j = t.costBetween j i) :
    t.Priced t.exactCost := by
  unfold make at hmake
  split at hmake
  · cases hmake
  · split at hmake
    · cases hmake
    · rename_i hlarge hsquare
      obtain rfl := Except.ok.inj hmake
      refine ⟨Nat.le_of_not_lt hlarge, fun i hi j hj => ?_, fun i j => ?_⟩
      · have hi' : i < costs.length := hi
        have hlength : costs[i].length = costs.length := by
          simp at hsquare
          exact hsquare _ (List.getElem_mem hi')
        have hj' : j < costs[i].length := hlength ▸ hj
        have hcost : costBetween ⟨costs, name⟩ i j = .ok costs[i][j] := by
          rw [costBetween, placed_of_lt hi']
          exact placed_of_lt hj'
        obtain ⟨q, hq⟩ := hfinite _ (List.getElem_mem hi') _ (List.getElem_mem hj')
        rw [exactCost, if_pos ⟨hi, hj⟩, hcost, hq]
      · unfold exactCost
        by_cases hij : i < cityCount ⟨costs, name⟩ ∧ j < cityCount ⟨costs, name⟩
        · rw [if_pos hij, if_pos hij.symm, hsymm i hij.1 j hij.2]
        · rw [if_neg hij, if_neg fun hji => hij hji.symm]

end Instance

/-- Settings that the tour solver accepts and that set no limit: the names are known, at least one
cut is wanted in a round, nodes are not counted, and the time is not up. -/
structure TourConfig.Unlimited (config : TourConfig Extended) : Prop where
  mode : ∃ mode, CutMode.ofName config.cutMode = .ok mode
  rule : ∃ rule, SelectionRule.ofName config.nodeSelection = .ok rule
  flow : ∃ flow, FlowMethod.ofName config.minCut = .ok flow
  cuts : 1 ≤ config.maxCutsPerRound
  nodes : config.maxNodes = 0
  time : ¬config.maxTime ≤ .finite 0

def TourConfig.settings (config : TourConfig Extended) (mode : CutMode) : SearchConfig Extended :=
  { (SearchConfig.standard : SearchConfig Extended) with
    maxTime := config.maxTime
    maxNodes := config.maxNodes
    nodeSelection := config.nodeSelection
    cutMode := mode
    maxCutsPerRound := config.maxCutsPerRound
    verbose := config.verbose }

theorem TourConfig.searchConfig_eq {config : TourConfig Extended} {mode : CutMode}
    (hmode : CutMode.ofName config.cutMode = .ok mode) (hcuts : 1 ≤ config.maxCutsPerRound) :
    config.searchConfig = .ok (config.settings mode) := by
  have hwanted : ¬config.maxCutsPerRound < 1 := by omega
  simp only [searchConfig, SearchConfig.checked, hmode, bind, Except.bind, hwanted, if_false]
  rfl

namespace Instance

open TourRelaxation Search

variable {method : Linear.Program → Option (List Rat)} {t : Instance Extended}
  {config : TourConfig Extended}

theorem solver_eq {mode : CutMode} {rule : SelectionRule} {flow : FlowMethod}
    (hmode : CutMode.ofName config.cutMode = .ok mode)
    (hrule : SelectionRule.ofName config.nodeSelection = .ok rule)
    (hflow : FlowMethod.ofName config.minCut = .ok flow) (hcuts : 1 ≤ config.maxCutsPerRound) :
    t.solver method config = .ok ⟨problem method, config.settings mode, OpenQueue.empty rule,
      Separator.ofGraph t.graph flow, [listenerName], ofInstance t Restrictions.empty, none⟩ := by
  simp only [solver, hflow, config.searchConfig_eq hmode hcuts, hrule, bind, Except.bind]
  rfl

theorem tourSolution_eq {found : Solution Extended} {tour : List Nat} {cost : Extended}
    (hextract : extractTour found.values t.cityCount = .ok tour) (hhead : tour.head? = some 0)
    (hcost : t.tourCost (tour.map Int.ofNat) = .ok cost) :
    t.tourSolution found = .ok ⟨tour, cost, found⟩ := by
  have hsome : tour.isEmpty = false := by
    cases tour with
    | nil => cases hhead
    | cons first rest => rfl
  simp only [tourSolution, hextract, hsome, hcost, bind, Except.bind, Bool.false_eq_true, if_false]
  rfl

theorem solveBy_eq_ok {s : Solver Extended Move (TourRelaxation Extended)}
    {found : Solution Extended} {solution : TourSolution Extended}
    (hsolver : t.solver method config = .ok s)
    (hfound : (s.solve (stepBound t.cityCount) none none).1 = .ok found)
    (hsolution : t.tourSolution found = .ok solution) :
    (t.solveBy method config).1 = .ok solution := by
  rcases hsolve : s.solve (stepBound t.cityCount) none none with ⟨result, run, s'⟩
  rw [hsolve] at hfound
  obtain rfl : result = .ok found := hfound
  simp only [solveBy, hsolver, hsolve, bind, Except.bind, hsolution]

/-- The tour solver finds a shortest tour. If the linear programs that its search can meet are
solved exactly, it ends with a tour through all cities, and no closed tour is shorter by more than a
millionth. -/
theorem solveBy_optimal {costs : List (List Extended)} {name : String}
    (hmake : make costs name = .ok t)
    (hfinite : ∀ row ∈ costs, ∀ x ∈ row, ∃ q : Rat, x = .finite q)
    (hsymm : ∀ i < t.cityCount, ∀ j < t.cityCount, t.costBetween i j = t.costBetween j i)
    (hconfig : config.Unlimited)
    (hexact : ∀ s, t.solver method config = .ok s → Exact method (.ofSolver s none none)) :
    ∃ solution, (t.solveBy method config).1 = .ok solution ∧ solution.found.status = .optimal ∧
      solution.tour.Perm (List.range t.cityCount) ∧ solution.tour.head? = some 0 ∧
      t.tourCost (solution.tour.map Int.ofNat) = .ok solution.cost ∧
      ∃ z : Rat, solution.cost = .finite z ∧ ∀ other : List Nat,
        other.Perm (List.range t.cityCount) → ∃ z' : Rat,
          t.tourCost (other.map Int.ofNat) = .ok (.finite z') ∧ z ≤ z' + 1 / 1000000 := by
  obtain ⟨mode, hmode⟩ := hconfig.mode
  obtain ⟨rule, hrule⟩ := hconfig.rule
  obtain ⟨flow, hflow⟩ := hconfig.flow
  have hsolver : t.solver method config = .ok _ := solver_eq hmode hrule hflow hconfig.cuts
  have hpriced := priced_exactCost hmake hfinite hsymm
  have hfair : Fair method t t.exactCost (config.settings mode) flow :=
    ⟨hpriced, hexact _ hsolver, hconfig.cuts, rfl, rfl, show (10 : Int) ≠ 0 by decide, hconfig.time,
      hconfig.nodes⟩
  obtain ⟨found, run, hcomplete, hempty⟩ := hfair.completes (OpenQueue.empty rule)
  obtain ⟨hstatus, tour, hextract, hperm, hhead, hleast⟩ := hfair.optimal hcomplete hempty
  have hcost := hpriced.tourCost_eq hperm
  have hsolve := solveBy_eq_ok hsolver (congrArg Prod.fst hcomplete)
    (tourSolution_eq hextract hhead hcost)
  exact ⟨_, hsolve, hstatus, hperm, hhead, hcost, _, rfl, fun other hother =>
    ⟨_, hpriced.tourCost_eq hother, hleast other hother⟩⟩

/-- A method that solves all linear programs of an instance is exact wherever it is searched. -/
theorem exact_of_solves {c : Nat → Nat → Rat} (ht : t.Priced c)
    (hsolves : ∀ {r}, Current t r → Linear.Solves method (r.program c))
    {s : Solver Extended Move (TourRelaxation Extended)}
    (hsolver : t.solver method config = .ok s) : Exact method (.ofSolver s none none) := by
  obtain ⟨flow, -, hsolver⟩ := except_bind_eq_ok.mp hsolver
  obtain ⟨settings, -, hsolver⟩ := except_bind_eq_ok.mp hsolver
  obtain ⟨rule, -, hsolver⟩ := except_bind_eq_ok.mp hsolver
  obtain rfl := Except.ok.inj hsolver
  intro r hmeets p hp
  have hmeets' : Meets (setup method t settings flow) r := hmeets
  have hr : Current t r := current_of_meets hmeets'
  obtain rfl := Option.some.inj ((hr.next?_eq ht).symm.trans hp)
  exact hsolves hr

/-- The standard settings set a time limit, but the clock stands still. -/
theorem unlimited_standard : (TourConfig.standard : TourConfig Extended).Unlimited where
  mode := ⟨.mostViolated, by cbv⟩
  rule := ⟨.bestFirst, by cbv⟩
  flow := ⟨.pushRelabel, by cbv⟩
  cuts := by decide
  nodes := rfl
  time := by
    show ¬Extended.finite 600 ≤ .finite 0
    rw [Extended.finite_le_finite]
    norm_num

/-- Six cities: two triangles, each city of one joined to one of the other. These edges cost 1, all
others 2. -/
def cheapPrism : Instance Extended :=
  ⟨[[.finite 0, .finite 1, .finite 1, .finite 1, .finite 2, .finite 2],
    [.finite 1, .finite 0, .finite 1, .finite 2, .finite 1, .finite 2],
    [.finite 1, .finite 1, .finite 0, .finite 2, .finite 2, .finite 1],
    [.finite 1, .finite 2, .finite 2, .finite 0, .finite 1, .finite 1],
    [.finite 2, .finite 1, .finite 2, .finite 1, .finite 0, .finite 1],
    [.finite 2, .finite 2, .finite 1, .finite 1, .finite 1, .finite 0]], "prism"⟩

def prismPoints : List (List Rat) :=
  [[1, 1, 0, 0, 0, 1, 0, 0, 0, 0, 0, 0, 1, 1, 1],
    [1 / 2, 1 / 2, 1, 0, 0, 1 / 2, 0, 1, 0, 0, 0, 1, 1 / 2, 1 / 2, 1 / 2],
    [1, 0, 1, 0, 0, 1, 0, 0, 0, 0, 0, 1, 1, 0, 1]]

theorem best_prismPoints {r : TourRelaxation Extended} (hr : r.tours = cheapPrism)
    {point : List Rat} (hmem : point ∈ prismPoints)
    (hadmits : (r.program cheapPrism.exactCost).admits point = true) :
    Linear.Best (r.program cheapPrism.exactCost) point where
  feasible := hadmits
  least := by
    intro other hother
    obtain ⟨y, rfl⟩ := exists_values hother
    have hcosts : ∀ p ∈ cheapPrism.pairs, 1 ≤ cheapPrism.exactCost p.1 p.2 := by decide +kernel
    have hcheap : ∀ point ∈ prismPoints, Linear.dot
        (cheapPrism.pairs.map fun p => cheapPrism.exactCost p.1 p.2) point = 6 := by
      decide +kernel
    have hsix : (r.program cheapPrism.exactCost).objective point = 6 := by
      rw [Linear.Program.objective, program, List.map_map, hr]
      exact hcheap point hmem
    have hleast := (admits_iff.mp hother).cityCount_le_total (hr ▸ hcosts)
    rw [hr] at hleast
    rw [hsix, objective_eq]
    exact hleast
  whole := by
    intro x hx k hk
    have hhalves : ∀ point ∈ prismPoints, ∀ x ∈ point, x = 0 ∨ x = 1 / 2 ∨ x = 1 := by
      decide +kernel
    obtain ⟨m, hm⟩ : ∃ m : Int, 2 * x = m := by
      rcases hhalves point hmem x hx with rfl | rfl | rfl
      · exact ⟨0, by norm_num⟩
      · exact ⟨1, by norm_num⟩
      · exact ⟨2, by norm_num⟩
    have hlt : |((m - 2 * k : Int) : Rat)| < 1 := by
      push_cast
      rw [← hm, ← mul_sub, abs_mul, abs_two]
      linarith
    have hzero : m - 2 * k = 0 := Int.abs_lt_one_iff.mp (by exact_mod_cast hlt)
    have : (m : Rat) = 2 * k := by exact_mod_cast sub_eq_zero.mp hzero
    linarith

/-- The first solution are the two triangles, which are cut apart; the second one, with one half on
the triangles, is branched on. -/
theorem solveBy_optimal_cheapPrism :
    ∃ solution, (cheapPrism.solveBy (Linear.preferring prismPoints) .standard).1 = .ok solution ∧
      solution.found.status = .optimal ∧ solution.tour.Perm (List.range 6) ∧
      solution.tour.head? = some 0 ∧ solution.found.cutsAdded = 1 ∧ solution.found.maxDepth = 1 ∧
      ∃ z : Rat, solution.cost = .finite z ∧ z ≤ 6 + 1 / 1000000 := by
  have hfinite : ∀ row ∈ cheapPrism.costs, ∀ x ∈ row, ∃ q : Rat, x = .finite q := by
    simp [cheapPrism]
  have hsymm : ∀ i < cheapPrism.cityCount, ∀ j < cheapPrism.cityCount,
      cheapPrism.costBetween i j = cheapPrism.costBetween j i := by
    intro i hi j hj
    have hi' : i < 6 := hi
    have hj' : j < 6 := hj
    interval_cases i <;> interval_cases j <;> rfl
  have hmake : make cheapPrism.costs "prism" = .ok cheapPrism := rfl
  have hsolves : ∀ {r}, Current cheapPrism r →
      Linear.Solves (Linear.preferring prismPoints) (r.program cheapPrism.exactCost) := fun hr =>
    solves_program (hr.tours ▸ le_refl 6) fun _ => best_prismPoints hr.tours
  obtain ⟨solution, hsolve, hstatus, hperm, hhead, -, z, hcost, hleast⟩ :=
    solveBy_optimal hmake hfinite hsymm unlimited_standard fun _ =>
      exact_of_solves (priced_exactCost hmake hfinite hsymm) hsolves
  have hcourse : (match (cheapPrism.solveBy (Linear.preferring prismPoints) .standard).1 with
      | .ok solution => decide (solution.found.cutsAdded = 1 ∧ solution.found.maxDepth = 1)
      | .error _ => false) = true := by
    have hsolver : cheapPrism.solver (Linear.preferring prismPoints) .standard = .ok _ :=
      solver_eq (by cbv : _ = Except.ok CutMode.mostViolated)
        (by cbv : _ = Except.ok SelectionRule.bestFirst)
        (by cbv : _ = Except.ok FlowMethod.pushRelabel) (by decide)
    rw [solveBy, hsolver, problem_eq]
    decide +kernel
  rw [hsolve, decide_eq_true_iff] at hcourse
  obtain ⟨z', hz', hle⟩ := hleast [0, 1, 2, 5, 4, 3] (by decide)
  have htour : cheapPrism.tourCost ([0, 1, 2, 5, 4, 3].map Int.ofNat) = .ok (.finite 6) := by cbv
  rw [Extended.finite.inj (Except.ok.inj (hz'.symm.trans htour))] at hle
  exact ⟨solution, hsolve, hstatus, hperm, hhead, hcourse.1, hcourse.2, z, hcost, hle⟩

end Instance

end TourSearch
