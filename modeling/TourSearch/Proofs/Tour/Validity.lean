import TourSearch.Proofs.Search.Partners
import TourSearch.Proofs.Tour.Solving
import TourSearch.Proofs.Tour.Values
import TourSearch.Tour.Solve
import Mathlib

/-!
The relaxation of an instance as a partner of a search. Between the calls of a search the bounds in
use are those that the restrictions set (`Current`). If the linear programs are solved exactly, the
stored cuts are different proper sets of cities (`Intact`), the relaxation is valid for the closed
tours (`Exact.valid`), and an accepted answer is that of a tour, which can be read off its values
(`Exact.tour_of_accepted`).
-/

namespace TourSearch

open Numeric

namespace TourRelaxation

variable {method : Linear.Program → Option (List Rat)} {t : Instance Extended}
  {c : Nat → Nat → Rat} {r r' : TourRelaxation Extended} {x : Nat × Nat → Rat}

/-! ### The state of a relaxation -/

structure Current (t : Instance Extended) (r : TourRelaxation Extended) : Prop where
  tours : r.tours = t
  bounds : r.UpToDate

/-- A relaxation whose cuts are different sets of cities. -/
structure Intact (t : Instance Extended) (r : TourRelaxation Extended) : Prop
    extends Current t r where
  proper : ∀ cut ∈ r.cuts, cut.side.IsProper t.graph.vertices
  different : (r.cuts.map (·.side)).Nodup

theorem intact_ofInstance (t : Instance Extended) (s : Restrictions) :
    Intact t (ofInstance t s) :=
  ⟨⟨rfl, fun _ h => (nomatch h)⟩, fun _ h => (nomatch h), List.nodup_nil⟩

theorem Current.next?_eq (hr : Current t r) (ht : t.Priced c) : r.next? = some (r.program c) :=
  hr.bounds.next?_eq.trans (program?_eq (hr.tours ▸ ht))

/-! ### Solving -/

def total (r : TourRelaxation Extended) (c : Nat → Nat → Rat) (x : Nat × Nat → Rat) : Rat :=
  (r.tours.pairs.map fun p => c p.1 p.2 * x p).sum

structure Optimal (r : TourRelaxation Extended) (c : Nat → Nat → Rat) (x : Nat × Nat → Rat) : Prop
    extends Found r x where
  least : ∀ {y}, r.Feasible y → r.total c x ≤ r.total c y

/-- An exact method answers with optimal values, unless none are feasible. -/
inductive Settled (r : TourRelaxation Extended) (c : Nat → Nat → Rat) : Answer Extended → Prop where
  | infeasible (none : ∀ x, ¬r.Feasible x) : Settled r c .infeasible
  | solved {x : Nat × Nat → Rat} (optimal : r.Optimal c x) :
      Settled r c (.solved (.finite (r.total c x)) (r.valuesOf (r.tours.pairs.map x)))

theorem Current.gives_solve (hr : Current t r) {answer : Answer Extended}
    (hgives : (problem method : Problem Extended Move _).solve.Gives r answer r') :
    r' = { r with bounds := some r.currentBounds, solves := r.solves + 1 } := by
  have hafter : (r.solveBy method).2 = r' := congrArg Prod.snd hgives
  rw [solveBy_eq, hr.bounds.takeBounds_eq] at hafter
  exact hafter.symm

theorem Current.settled (hr : Current t r) (ht : t.Priced c)
    (hexact : Linear.Solves method (r.program c)) {answer : Answer Extended}
    (hgives : (problem method : Problem Extended Move _).solve.Gives r answer r') :
    Settled r c answer := by
  obtain rfl : (r.solveBy method).1 = answer := Except.ok.inj (Prod.mk.inj hgives).1
  simp only [solveBy_eq, answerTo, hr.next?_eq ht]
  cases hpoint : method (r.program c) with
  | none => exact .infeasible fun x hx => hexact.finds (admits_iff.mpr hx) hpoint
  | some point =>
      have hadmits := hexact.feasible hpoint
      obtain ⟨x, rfl⟩ := exists_values hadmits
      have hfound : r.Found x := ⟨admits_iff.mp hadmits, fun p hp k hk =>
        hexact.whole hpoint (x p) (List.mem_map_of_mem hp) k hk⟩
      have hleast : ∀ {y}, r.Feasible y → r.total c x ≤ r.total c y := fun hy => by
        have := hexact.optimal hpoint (admits_iff.mpr hy)
        rwa [objective_eq, objective_eq] at this
      show Settled r c (.solved (.finite ((r.program c).objective (r.tours.pairs.map x))) _)
      rw [objective_eq]
      exact .solved ⟨hfound, hleast⟩

theorem Current.solved (hr : Current t r) (solves : Nat) :
    Current t { r with bounds := some r.currentBounds, solves } :=
  ⟨hr.tours, fun _ hb => (Option.mem_some_iff.mp hb).symm⟩

theorem Intact.solved (hr : Intact t r) (solves : Nat) :
    Intact t { r with bounds := some r.currentBounds, solves } :=
  ⟨hr.toCurrent.solved solves, hr.proper, hr.different⟩

/-! ### Cuts -/

theorem Found.separated (hx : r.Found x) {config : SearchConfig Extended}
    (hcuts : 1 ≤ config.maxCutsPerRound) {s : Separator Extended}
    (hs : s.graph.IsOf r.tours.graph) :
    ∃ cuts, (Run.separated config s (r.valuesOf (r.tours.pairs.map x))).1 = .ok cuts ∧
      Separator.Separates r.tours.graph.vertices
        ((r.valuesOf (r.tours.pairs.map x)).leaving .simple) cuts := by
  have hspec := Run.separated_spec hcuts r.tours.wellFormed_graph hs hx.coarse.finite
    (hx.coarse.refresh_ok hs)
  rwa [show r.tours.graph.kind = .simple from Graph.build_kind _ _ _] at hspec

theorem mem_allCities {v : Vertex} : v ∈ r.allCities ↔ v ∈ r.tours.graph.vertices := by
  rw [allCities, SortedSet.mem_ofList, Instance.graph, Instance.vertices_complete]

/-- A set that is crossed by less than all of some cuts is not one of them or opposite to one. -/
theorem describes_eq_false {all side : VertexSet} {cuts : List (Cut Extended)} {w : VertexSet → Rat}
    {bound : Rat} (hopposite : ∀ s, w (all.diff s) = w s)
    (hcuts : ∀ cut ∈ cuts, bound ≤ w cut.side) (hside : w side < bound) :
    describes all cuts side = false := by
  rw [Bool.eq_false_iff]
  intro hany
  obtain ⟨cut, hcut, hsame⟩ := List.any_eq_true.mp hany
  rw [Bool.or_eq_true, beq_iff_eq, beq_iff_eq] at hsame
  have hle := hcuts cut hcut
  rcases hsame with rfl | rfl
  · exact absurd hside (not_lt.mpr hle)
  · rw [hopposite] at hside
    exact absurd hside (not_lt.mpr hle)

theorem Found.describes_eq_false (hx : r.Found x) {side : VertexSet}
    (hcrossed : (r.valuesOf (r.tours.pairs.map x)).leaving .simple side < 2) :
    describes r.allCities r.cuts side = false := by
  refine TourRelaxation.describes_eq_false (fun s => ?_) (fun cut hcut => ?_) hcrossed
  · have hof : (CutGraph.ofGraph r.tours.graph : CutGraph Extended).IsOf r.tours.graph :=
      CutGraph.isOf_ofGraph _
    have hopposite := EdgeValues.leaving_diff r.tours.wellFormed_graph hof hx.coarse.finite
      (hx.coarse.refresh_ok hof) (fun v hv => mem_allCities.mpr hv) s
    rwa [show r.tours.graph.kind = .simple from Graph.build_kind _ _ _] at hopposite
  · rw [hx.coarse.leaving_eq]
    exact hx.cuts cut hcut

def store (all : VertexSet) (stored : List (Cut Extended)) (cut : Cut Extended) :
    List (Cut Extended) :=
  if describes all stored cut.side then stored else stored ++ [cut]

theorem addCuts_eq (r : TourRelaxation Extended) (cuts : List (Cut Extended)) :
    r.addCuts cuts = ((cuts.foldl (store r.allCities) r.cuts).length - r.cuts.length,
      { r with cuts := cuts.foldl (store r.allCities) r.cuts }) := rfl

theorem store_cases (all : VertexSet) (stored : List (Cut Extended)) (cut : Cut Extended) :
    (describes all stored cut.side = true ∧ store all stored cut = stored) ∨
      (describes all stored cut.side = false ∧ store all stored cut = stored ++ [cut]) := by
  cases h : describes all stored cut.side with
  | false => exact Or.inr ⟨rfl, if_neg (h ▸ Bool.false_ne_true)⟩
  | true => exact Or.inl ⟨rfl, if_pos h⟩

/-- What describes no row is not stored. -/
theorem notMem_of_not_describes {all side : VertexSet} {stored : List (Cut Extended)}
    (hnew : describes all stored side = false) : side ∉ stored.map (·.side) := by
  intro hmem
  obtain ⟨old, hold, hside⟩ := List.mem_map.mp hmem
  rw [describes, List.any_eq_false] at hnew
  exact hnew old hold (by simp [hside])

theorem nodup_store {all : VertexSet} {stored : List (Cut Extended)} {cut : Cut Extended}
    (hstored : (stored.map (·.side)).Nodup) : ((store all stored cut).map (·.side)).Nodup := by
  rcases store_cases all stored cut with ⟨-, hsame⟩ | ⟨hnew, happended⟩
  · rwa [hsame]
  · rw [happended, List.map_append, List.map_singleton, ← List.concat_eq_append, List.nodup_concat]
    exact ⟨notMem_of_not_describes hnew, hstored⟩

theorem foldl_store (all : VertexSet) (cuts stored : List (Cut Extended)) :
    ∃ added, cuts.foldl (store all) stored = stored ++ added ∧ added.Sublist cuts := by
  induction cuts generalizing stored with
  | nil => exact ⟨[], (List.append_nil _).symm, .slnil⟩
  | cons cut cuts ih =>
      obtain ⟨added, hadded, hsub⟩ := ih (store all stored cut)
      rw [List.foldl_cons, hadded]
      rcases store_cases all stored cut with ⟨-, hsame⟩ | ⟨-, happended⟩
      · exact ⟨added, by rw [hsame], hsub.cons cut⟩
      · exact ⟨cut :: added, by rw [happended, List.append_assoc, List.singleton_append],
          hsub.cons_cons cut⟩

theorem addCuts_pos {cuts : List (Cut Extended)} (hne : cuts ≠ [])
    (hnew : ∀ cut ∈ cuts, describes r.allCities r.cuts cut.side = false) :
    0 < (r.addCuts cuts).1 := by
  obtain ⟨cut, rest, rfl⟩ := List.exists_cons_of_ne_nil hne
  obtain ⟨added, heq, -⟩ := foldl_store r.allCities rest (r.cuts ++ [cut])
  rw [addCuts_eq, List.foldl_cons, store, hnew cut List.mem_cons_self]
  simp only [Bool.false_eq_true, if_false, heq, List.length_append, List.length_singleton]
  omega

theorem gives_addCuts {cuts : List (Cut Extended)} {count : Nat}
    (hgives : ((problem method : Problem Extended Move _).addCuts cuts).Gives r count r') :
    r' = { r with cuts := cuts.foldl (store r.allCities) r.cuts } ∧
      r'.cuts.length = r.cuts.length + count := by
  simp only [Action.Gives, Action.runOn, problem, addCuts_eq, Prod.mk.injEq, Except.ok.injEq]
    at hgives
  obtain ⟨rfl, rfl⟩ := hgives
  obtain ⟨added, heq, -⟩ := foldl_store r.allCities cuts r.cuts
  refine ⟨rfl, ?_⟩
  simp only [heq, List.length_append]
  omega

theorem Intact.addCuts (hr : Intact t r) {cuts : List (Cut Extended)}
    (hproper : ∀ cut ∈ cuts, cut.side.IsProper t.graph.vertices) :
    Intact t { r with cuts := cuts.foldl (store r.allCities) r.cuts } := by
  refine ⟨⟨hr.tours, hr.bounds⟩, fun cut hcut => ?_, ?_⟩
  · obtain ⟨added, heq, hsub⟩ := foldl_store r.allCities cuts r.cuts
    rw [heq] at hcut
    rcases List.mem_append.mp hcut with hold | hnew
    · exact hr.proper cut hold
    · exact hproper cut (hsub.subset hnew)
  · exact List.foldlRecOn (motive := fun stored => (stored.map (·.side)).Nodup) cuts
      (store r.allCities) hr.different fun _ hstored _ _ => nodup_store hstored

/-! ### Decisions -/

theorem gives_act {a : Act} {d : Decision Move}
    (hgives : (perform (.act a d)).runOn r = (.ok (), r')) :
    ∃ s, Move.act a d.move r.restrictions = .ok s ∧ r' = { r with restrictions := s } := by
  simp only [perform, act, Action.runOn] at hgives
  cases hact : Move.act a d.move r.restrictions with
  | error fault => simp [hact, bind, Except.bind] at hgives
  | ok s =>
      simp only [hact, bind, Except.bind, pure, Except.pure, Prod.mk.injEq, true_and] at hgives
      exact ⟨s, rfl, hgives.symm⟩

theorem actsOn_perform :
    Trail.ActsOn (perform (α := Extended)) TourRelaxation.restrictions Trail.moveAct where
  act_ok := by
    intro a d s s' h
    obtain ⟨after, hact, rfl⟩ := gives_act h
    exact hact
  notify_ok := by
    intro name a d s s' h
    exact (congrArg (fun result => result.2.restrictions) h).symm

theorem performs_callsFor {a : Act} {d : Decision Move}
    (hperforms : Trail.Performs (perform (α := Extended)) (Trail.callsFor [listenerName] a d)
      r r') :
    ∃ restrictions, r' = { r with restrictions, bounds := none } := by
  cases hperforms with
  | cons first others =>
      obtain ⟨s, -, rfl⟩ := gives_act first
      cases others with
      | cons notice rest =>
          cases rest
          simp only [perform, Action.runOn, Prod.mk.injEq, true_and] at notice
          exact ⟨s, notice.symm⟩

end TourRelaxation

/-! ### A search over the tours of an instance -/

namespace TourRelaxation

open Search

variable {method : Linear.Program → Option (List Rat)} {t : Instance Extended}
  {c : Nat → Nat → Rat} {config : SearchConfig Extended} {flow : FlowMethod}
  {r r' : TourRelaxation Extended}

theorem problem_eq (method : Linear.Program → Option (List Rat)) :
    problem method = { problem method with
      candidates := fun n values r => (EdgeBranching.standard.ready n.id.toNat values, r) } := by
  simp only [← EdgeBranching.candidates_eq_ready]
  rfl

def setup (method : Linear.Program → Option (List Rat)) (t : Instance Extended)
    (config : SearchConfig Extended) (flow : FlowMethod) : Setup (TourRelaxation Extended) :=
  ⟨problem method, config, Separator.ofGraph t.graph flow, [listenerName],
    ofInstance t Restrictions.empty⟩

def Exact (method : Linear.Program → Option (List Rat))
    (S : Setup (TourRelaxation Extended)) : Prop :=
  ∀ r, Meets S r → ∀ p, r.next? = some p → Linear.Solves method p

def tourSet (t : Instance Extended) (c : Nat → Nat → Rat) : Set Tour :=
  { T | ∃ v, Closed t.cityCount v ∧ T = Closed.tour c t.cityCount v }

theorem isOf_ofGraph_like {s : Separator Extended}
    (hlike : s.Like (Separator.ofGraph t.graph flow)) : s.graph.IsOf t.graph := by
  have hof := CutGraph.isOf_ofGraph t.graph
  unfold CutGraph.IsOf at hof ⊢
  rw [hlike.1]
  exact hof

/-- A search keeps the bounds current, whatever it is told about linear programs. -/
theorem current_of_meets (hmeets : Meets (setup method t config flow) r) : Current t r := by
  induction hmeets with
  | start => exact (intact_ofInstance t _).toCurrent
  | solve _ step ih =>
      obtain rfl := ih.gives_solve step
      exact ih.solved _
  | addCuts _ solved _ step ih =>
      obtain rfl := ih.gives_solve solved
      obtain ⟨rfl, -⟩ := gives_addCuts step
      exact ⟨ih.tours, fun _ hb => (Option.mem_some_iff.mp hb).symm⟩
  | decide _ step ih =>
      obtain ⟨s, rfl⟩ := performs_callsFor step
      exact ⟨ih.tours, fun _ hb => (nomatch hb)⟩
  | afterNode _ step ih =>
      obtain rfl := congrArg (fun result => result.2.2) step
      exact ih

theorem Exact.solves (hexact : Exact method (setup method t config flow)) (ht : t.Priced c)
    (hmeets : Meets (setup method t config flow) r) : Linear.Solves method (r.program c) :=
  hexact r hmeets _ ((current_of_meets hmeets).next?_eq ht)

/-- Cuts are separated from exact solutions, which cross those that are stored. -/
theorem Exact.intact (hexact : Exact method (setup method t config flow)) (ht : t.Priced c)
    (hcuts : 1 ≤ config.maxCutsPerRound) (hmeets : Meets (setup method t config flow) r) :
    Intact t r := by
  induction hmeets with
  | start => exact intact_ofInstance t _
  | solve hmeets step ih =>
      obtain rfl := ih.gives_solve step
      exact ih.solved _
  | @addCuts w₀ _ _ _ _ _ _ hmeets solved found step ih =>
      have hgraph : (setup method t config flow).separator.graph.IsOf w₀.tours.graph := by
        rw [ih.tours]
        exact CutGraph.isOf_ofGraph t.graph
      have hsettled := ih.settled ht (hexact.solves ht hmeets) solved
      obtain rfl := ih.gives_solve solved
      obtain ⟨rfl, -⟩ := gives_addCuts step
      refine (ih.solved _).addCuts fun cut hcut => ?_
      cases hsettled with
      | solved optimal =>
          obtain ⟨_, hfound, hseparates⟩ := optimal.toFound.separated hcuts hgraph
          obtain rfl := Except.ok.inj (hfound.symm.trans found)
          have hproper := (hseparates.violated cut hcut).1
          rwa [ih.tours] at hproper
  | decide _ step ih =>
      obtain ⟨s, rfl⟩ := performs_callsFor step
      exact ⟨⟨ih.tours, fun _ hb => (nomatch hb)⟩, ih.proper, ih.different⟩
  | afterNode _ step ih =>
      obtain rfl := congrArg (fun result => result.2.2) step
      exact ih

theorem partners (method : Linear.Program → Option (List Rat)) (t : Instance Extended)
    (flow : FlowMethod) (htolerance : config.integralityTolerance = Scalar.ratio 1 1000000) :
    Partners (setup method t config flow) TourRelaxation.restrictions where
  empty := rfl
  acts := actsOn_perform
  solve_view := by
    intro w w' answer h
    have hbounds : w.takeBounds.2.restrictions = w.restrictions := by
      unfold takeBounds
      split <;> rfl
    rw [← hbounds]
    exact (congrArg (fun result => result.2.restrictions) h).symm
  addCuts_view := by
    intro cuts w w' count h
    obtain ⟨rfl, -⟩ := gives_addCuts h
    rfl
  branching := by
    intro n values w
    rw [show (setup method t config flow).config.integralityTolerance = _ from htolerance]
    rfl
  afterNode := by
    intro node t t' w w' h
    have hsame := congrArg Prod.snd h
    exact ⟨(congrArg Prod.fst hsame).symm, (congrArg (fun s => s.2.restrictions) hsame).symm⟩

/-- A closed tour that the restrictions allow is feasible, and its values cost what it costs. -/
theorem Intact.feasible (hr : Intact t r) (ht : t.Priced c) {T : Tour} (hT : T ∈ tourSet t c)
    (hallows : r.restrictions.Allows T.edges) : ∃ y, r.Feasible y ∧ r.total c y = T.cost := by
  obtain ⟨v, hv, rfl⟩ := hT
  obtain rfl := hr.tours
  exact ⟨_, feasible_incidence ht.large hv (respects_of_allows hallows) hr.proper,
    hv.sum_incidence ht.large ht.symm⟩

/-- Integral values for which separation finds no cut are those of a tour, which is read off
them. -/
theorem Optimal.tour {x : Nat × Nat → Rat} (hx : r.Optimal c x) (ht : r.tours.Priced c)
    (hcuts : 1 ≤ config.maxCutsPerRound) {s : Separator Extended}
    (hs : s.graph.IsOf r.tours.graph)
    (hintegral : (r.valuesOf (r.tours.pairs.map x)).isIntegral (.finite (1 / 1000000)) = .ok true)
    (huncut : (Run.separated config s (r.valuesOf (r.tours.pairs.map x))).1 = .ok []) :
    ∃ tour, extractTour (r.valuesOf (r.tours.pairs.map x)) r.tours.cityCount = .ok tour ∧
      tour.Perm (List.range r.tours.cityCount) ∧ tour.head? = some 0 ∧
      r.total c x = (Closed.tour c r.tours.cityCount (around tour)).cost := by
  obtain ⟨cuts, hfound, hseparates⟩ := hx.toFound.separated hcuts hs
  obtain rfl := Except.ok.inj (huncut.symm.trans hfound)
  have hbinary := hx.toFound.binary hintegral fun side hside => hseparates.complete rfl side hside
  obtain ⟨tour, hextract, hperm, hhead, hincidence⟩ := hbinary.extractTour_spec ht.large rfl
  refine ⟨tour, by rw [hx.toFound.coarse.valuesOf_eq]; exact hextract, hperm, hhead, ?_⟩
  have hsum := (closed_around hperm).sum_incidence ht.large ht.symm
  calc r.total c x
      = (r.tours.pairs.map fun p =>
          c p.1 p.2 * Closed.incidence r.tours.cityCount (around tour) p).sum :=
        congrArg List.sum (List.map_congr_left fun p hp => by rw [hincidence p hp])
    _ = (Closed.tour c r.tours.cityCount (around tour)).cost := hsum

theorem Exact.tour_of_accepted (hexact : Exact method (setup method t config flow))
    (ht : t.Priced c) (hcuts : 1 ≤ config.maxCutsPerRound)
    (htolerance : config.integralityTolerance = Scalar.ratio 1 1000000) {z : Extended}
    {values : EdgeValues Extended} (haccepted : Accepted (setup method t config flow) z values) :
    ∃ tour, extractTour values t.cityCount = .ok tour ∧ tour.Perm (List.range t.cityCount) ∧
      tour.head? = some 0 ∧ z = .finite (Closed.tour c t.cityCount (around tour)).cost := by
  obtain ⟨w, w', hmeets, hsolve⟩ := haccepted.answer
  have hr := hexact.intact ht hcuts hmeets
  have hintegral := haccepted.integral
  rw [show (setup method t config flow).config.integralityTolerance = _ from htolerance,
    Extended.scalar_millionth] at hintegral
  have hsettled := hr.settled ht (hexact.solves ht hmeets) hsolve
  obtain rfl := hr.tours
  cases hsettled with
  | solved optimal =>
      obtain ⟨tour, hextract, hperm, hhead, hcost⟩ := optimal.tour ht hcuts
        (CutGraph.isOf_ofGraph _) hintegral haccepted.uncut
      exact ⟨tour, hextract, hperm, hhead, by rw [hcost]⟩

/-- An exact relaxation is valid for the closed tours. -/
theorem Exact.valid (hexact : Exact method (setup method t config flow)) (ht : t.Priced c)
    (hcuts : 1 ≤ config.maxCutsPerRound)
    (htolerance : config.integralityTolerance = Scalar.ratio 1 1000000) :
    Valid (setup method t config flow) TourRelaxation.restrictions (tourSet t c) where
  infeasible := by
    intro w w' hmeets hsolve T hT hallows
    have hr := hexact.intact ht hcuts hmeets
    obtain ⟨y, hy, -⟩ := hr.feasible ht hT hallows
    cases hr.settled ht (hexact.solves ht hmeets) hsolve with
    | infeasible none => exact none y hy
  bound := by
    intro w w' z values hmeets hsolve _ T hT hallows
    have hr := hexact.intact ht hcuts hmeets
    obtain ⟨y, hy, hcost⟩ := hr.feasible ht hT hallows
    cases hr.settled ht (hexact.solves ht hmeets) hsolve with
    | solved optimal =>
        rw [Extended.finite_le_finite, ← hcost]
        exact optimal.least hy
  integral := by
    intro z values haccepted
    obtain ⟨tour, -, hperm, -, hz⟩ := hexact.tour_of_accepted ht hcuts htolerance haccepted
    exact ⟨_, ⟨around tour, closed_around hperm, rfl⟩, hz⟩

end TourRelaxation

end TourSearch
