import TourSearch.Proofs.Restrictions.Strictness
import TourSearch.Proofs.Tour.Validity
import Mathlib

/-!
The linear program of a relaxation and the tours of its cities correspond. Every tour that respects
the restrictions is a point of the program (`Satisfies`), so that no stored cut and no bound takes
an admissible tour away. Conversely a point of zeros and ones that keeps to the bounds and the
degrees, and in which separation finds nothing, is such a tour, and it is the one that is read off
its values.
-/

namespace TourSearch

open Numeric

namespace TourRelaxation

variable {r : TourRelaxation Extended} {x : Nat × Nat → Rat}

/-! ### What the program demands of a point -/

structure KeepsBounds (r : TourRelaxation Extended) (point : List Rat) : Prop where
  length_eq : point.length = r.takeBounds.1.length
  within : ∀ bx ∈ r.takeBounds.1.zip point, ((bx.1.1 : Nat) : Rat) ≤ bx.2 ∧ bx.2 ≤ (bx.1.2 : Nat)

/-- A point keeps to the bounds and satisfies all rows, whatever the costs are. -/
structure Satisfies (r : TourRelaxation Extended) (point : List Rat) : Prop where
  bounds : r.KeepsBounds point
  degrees : ∀ k < r.tours.cityCount, (r.degreeRow k).admits point = true
  cuts : ∀ cut ∈ r.cuts, (r.cutRow cut).admits point = true

theorem bounds_of_columns {bounds : List (Nat × Nat)} {columns : List Linear.Column}
    (hlength : bounds.length = r.tours.pairs.length) (hcolumns : r.columns? bounds = some columns) :
    (columns.map fun c => (c.lower, c.upper)) =
      bounds.map fun b => (((b.1 : Nat) : Rat), ((b.2 : Nat) : Rat)) := by
  have hall : ∀ (pairs : List (Nat × Nat)) (bounds : List (Nat × Nat))
      (columns : List Linear.Column), bounds.length = pairs.length →
      ((pairs.zip bounds).mapM fun pb => (r.exactCost? pb.1.1 pb.1.2).map fun cost =>
        (⟨cost, (pb.2.1 : Nat), (pb.2.2 : Nat)⟩ : Linear.Column)) = some columns →
      (columns.map fun c => (c.lower, c.upper)) =
        bounds.map fun b => (((b.1 : Nat) : Rat), ((b.2 : Nat) : Rat)) := by
    intro pairs
    induction pairs with
    | nil =>
        intro bounds columns hlength hcolumns
        obtain rfl := List.length_eq_zero_iff.mp hlength
        obtain rfl : [] = columns := Option.some.inj hcolumns
        rfl
    | cons p pairs ih =>
        intro bounds columns hlength hcolumns
        cases bounds with
        | nil => cases hlength
        | cons b bounds =>
            rw [List.zip_cons_cons, List.mapM_cons] at hcolumns
            obtain ⟨first, hfirst, hrest⟩ := Option.bind_eq_some_iff.mp hcolumns
            obtain ⟨others, hothers, hlast⟩ := Option.bind_eq_some_iff.mp hrest
            obtain ⟨cost, -, rfl⟩ := Option.map_eq_some_iff.mp hfirst
            obtain rfl : _ :: others = columns := Option.some.inj hlast
            rw [List.map_cons, List.map_cons, ih bounds others (Nat.succ.inj hlength) hothers]
  exact hall _ _ _ hlength hcolumns

theorem length_takeBounds (hcurrent : r.UpToDate) :
    r.takeBounds.1.length = r.tours.pairs.length := by
  rw [hcurrent.takeBounds_eq, currentBounds, List.length_map]

theorem next?_admits_iff (hcurrent : r.UpToDate)
    {program : Linear.Program} (hnext : r.next? = some program) (point : List Rat) :
    program.admits point = true ↔ r.Satisfies point := by
  obtain ⟨columns, hcolumns, rfl⟩ := Option.map_eq_some_iff.mp hnext
  have hbounds := bounds_of_columns (length_takeBounds hcurrent) hcolumns
  have hlength : columns.length = r.takeBounds.1.length := by
    simpa using congrArg List.length hbounds
  have hwithin : (columns.zip point).all
      (fun (cx : Linear.Column × Rat) => decide (cx.1.lower ≤ cx.2) && decide (cx.2 ≤ cx.1.upper)) =
        true ↔ ∀ bx ∈ r.takeBounds.1.zip point,
          ((bx.1.1 : Nat) : Rat) ≤ bx.2 ∧ bx.2 ≤ (bx.1.2 : Nat) := by
    -- Both sides say the same about the bounds as fractions.
    have hzip := congrArg (fun l : List (Rat × Rat) => (l.zip point).all fun bx =>
      decide (bx.1.1 ≤ bx.2) && decide (bx.2 ≤ bx.1.2)) hbounds
    simp only [List.zip_map_left, List.all_map] at hzip
    refine (Eq.congr_left hzip).trans ?_
    simp only [List.all_eq_true, Function.comp_apply, Bool.and_eq_true, decide_eq_true_iff,
      Prod.map_fst, Prod.map_snd, id_eq]
  rw [Linear.Program.admits, Bool.and_eq_true, Bool.and_eq_true, beq_iff_eq, hwithin, hlength,
    List.all_append, Bool.and_eq_true, List.all_map, List.all_map]
  simp only [List.all_eq_true, Function.comp_apply, List.mem_range]
  exact ⟨fun h => ⟨⟨h.1.1, h.1.2⟩, h.2.1, h.2.2⟩,
    fun h => ⟨⟨h.bounds.length_eq, h.bounds.within⟩, h.degrees, h.cuts⟩⟩

theorem keepsBounds_iff (hcurrent : r.UpToDate) :
    r.KeepsBounds (r.tours.pairs.map x) ↔
      ∀ p ∈ r.tours.pairs, r.lower p ≤ x p ∧ x p ≤ r.upper p := by
  have hzip : r.takeBounds.1.zip (r.tours.pairs.map x) = r.tours.pairs.map fun p =>
      (r.restrictions.bounds (Instance.edge p.1 p.2), x p) := by
    rw [hcurrent.takeBounds_eq]
    exact List.zip_map'
  constructor
  · intro h p hp
    exact h.within _ (hzip ▸ List.mem_map_of_mem hp)
  · intro h
    refine ⟨by rw [length_takeBounds hcurrent, List.length_map], fun bx hbx => ?_⟩
    rw [hzip] at hbx
    obtain ⟨p, hp, rfl⟩ := List.mem_map.mp hbx
    exact h p hp

theorem satisfies_iff (hcurrent : r.UpToDate) :
    r.Satisfies (r.tours.pairs.map x) ↔ r.Feasible x := by
  constructor
  · intro h
    exact ⟨(keepsBounds_iff hcurrent).mp h.bounds,
      fun k hk => degreeRow_admits_iff.mp (h.degrees k hk),
      fun cut hcut => cutRow_admits_iff.mp (h.cuts cut hcut)⟩
  · intro h
    exact ⟨(keepsBounds_iff hcurrent).mpr h.bounds,
      fun k hk => degreeRow_admits_iff.mpr (h.degree k hk),
      fun cut hcut => cutRow_admits_iff.mpr (h.cuts cut hcut)⟩

/-! ### Points of zeros and ones -/

/-- Separation of one cut reports nothing, or one of the two ways to separate several cuts does. -/
def Uncut (s : Separator Extended) (values : EdgeValues Extended) : Prop :=
  (s.single values).1 = .ok none ∨
    ∃ maxCuts : Int, 1 ≤ maxCuts ∧
      ((s.any values maxCuts).1 = .ok [] ∨ (s.mostViolated values maxCuts).1 = .ok [])

/-- Each of the ways to separate is one of the modes of a search. -/
theorem Uncut.separated {s : Separator Extended} {values : EdgeValues Extended}
    (h : Uncut s values) : ∃ config : SearchConfig Extended, 1 ≤ config.maxCutsPerRound ∧
      (Run.separated config s values).1 = .ok [] := by
  rcases h with hsingle | ⟨maxCuts, hmax, hany | hmost⟩
  · refine ⟨{ SearchConfig.standard with cutMode := .single }, by decide, ?_⟩
    show ((s.single values).1).map Option.toList = _
    rw [hsingle]
    rfl
  · exact ⟨{ SearchConfig.standard with cutMode := .any, maxCutsPerRound := maxCuts }, hmax, hany⟩
  · exact ⟨{ SearchConfig.standard with cutMode := .mostViolated, maxCutsPerRound := maxCuts },
      hmax, hmost⟩

theorem coarse_of_binary (hx : ∀ p ∈ r.tours.pairs, x p = 0 ∨ x p = 1) : r.Coarse x := by
  refine ⟨fun p hp => ?_, fun p hp hsmall => ?_⟩
  · rcases hx p hp with h | h
    · exact h.ge
    · rw [h]
      exact zero_le_one
  · rcases hx p hp with h | h
    · exact h
    · rw [h] at hsmall
      norm_num at hsmall

/-- Zeros and ones with the right degrees in which separation finds nothing make up a tour. -/
theorem binary_of_uncut (hx : ∀ p ∈ r.tours.pairs, x p = 0 ∨ x p = 1)
    (hdegree : ∀ k < r.tours.cityCount, (r.degreeRow k).admits (r.tours.pairs.map x) = true)
    {s : Separator Extended} (hs : s.graph.IsOf r.tours.graph)
    (huncut : Uncut s (r.valuesOf (r.tours.pairs.map x))) : Binary r.tours x := by
  have hcoarse := coarse_of_binary hx
  obtain ⟨config, hcuts, hfound⟩ := huncut.separated
  obtain ⟨cuts, hcutsFound, hseparates⟩ := Run.separated_spec hcuts r.tours.wellFormed_graph hs
    hcoarse.finite (hcoarse.refresh_ok hs)
  obtain rfl := Except.ok.inj (hcutsFound.symm.trans hfound)
  rw [show r.tours.graph.kind = .simple from Graph.build_kind _ _ _] at hseparates
  exact ⟨hx, fun k hk => degreeRow_admits_iff.mp (hdegree k hk),
    hcoarse.crossed (hseparates.complete rfl)⟩

/-- A tour whose incidence keeps to the bounds respects the restrictions. -/
theorem respects_of_bounds (hn : 3 ≤ r.tours.cityCount) {v : Nat → Nat}
    (hv : Closed r.tours.cityCount v) (hattainable : r.restrictions.Attainable)
    (hbounds : ∀ p ∈ r.tours.pairs, r.lower p ≤ Closed.incidence r.tours.cityCount v p ∧
      Closed.incidence r.tours.cityCount v p ≤ r.upper p) : r.Respects v := by
  refine fun p hp => ⟨fun hfixed => ?_, fun hforbidden i hi hleg => ?_⟩
  · by_contra hnone
    push Not at hnone
    have hone : r.lower p = 1 := by simp [lower, Restrictions.bounds, Restrictions.isFixed, hfixed]
    have hlower := (hbounds p hp).1
    rw [Closed.incidence_of_not_leg hnone, hone] at hlower
    norm_num at hlower
  · have hfree : (Instance.edge p.1 p.2).key ∉ r.restrictions.fixed :=
      fun hfixed => hattainable.apart _ hfixed hforbidden
    have hzero : r.upper p = 0 := by
      simp [upper, Restrictions.bounds, Restrictions.isFixed, Restrictions.isForbidden, hfree,
        hforbidden]
    have hupper := (hbounds p hp).2
    rw [hv.incidence_of_leg hn hi hleg, hzero] at hupper
    norm_num at hupper

/-! ### The correspondence -/

/-- A relaxation answers by the program that is handed to the method, and this program says nothing
but what bounds and rows say. It admits every tour that uses all fixed pairs of cities and no
forbidden one. A point of zeros and ones that keeps to the bounds and the degrees, and in which
separation on all cities finds nothing, is such a tour, and this tour is read off its values. -/
theorem program_corresponds_to_tours (r : TourRelaxation Extended) (hn : 3 ≤ r.tours.cityCount)
    (hcurrent : r.UpToDate) (hattainable : r.restrictions.Attainable)
    (hcuts : ∀ cut ∈ r.cuts, cut.side.IsProper r.tours.graph.vertices) :
    (∀ method, (r.solveBy method).1 = r.answerTo method r.next?) ∧
    (∀ program, r.next? = some program →
      ∀ point, program.admits point = true ↔ r.Satisfies point) ∧
    (∀ v, Closed r.tours.cityCount v → r.Respects v →
      r.Satisfies (r.tours.pairs.map (Closed.incidence r.tours.cityCount v))) ∧
    ∀ point, (∀ y ∈ point, y = 0 ∨ y = 1) → r.KeepsBounds point →
      (∀ k < r.tours.cityCount, (r.degreeRow k).admits point = true) →
      ∀ s : Separator Extended, s.graph.IsOf r.tours.graph → Uncut s (r.valuesOf point) →
        ∃ tour, extractTour (r.valuesOf point) r.tours.cityCount = .ok tour ∧
          tour.Perm (List.range r.tours.cityCount) ∧ tour.head? = some 0 ∧
          Closed r.tours.cityCount (around tour) ∧ r.Respects (around tour) ∧
          point = r.tours.pairs.map (Closed.incidence r.tours.cityCount (around tour)) := by
  refine ⟨fun method => congrArg Prod.fst (solveBy_eq method r),
    fun program hnext point => next?_admits_iff hcurrent hnext point,
    fun v hv hrespects => (satisfies_iff hcurrent).mpr (feasible_incidence hn hv hrespects hcuts),
    fun point hbinary hbounds hdegree s hs huncut => ?_⟩
  obtain ⟨x, rfl⟩ : ∃ x, point = r.tours.pairs.map x :=
    exists_eq_map r.tours.nodup_pairs (hbounds.length_eq.trans (length_takeBounds hcurrent))
  have hx : ∀ p ∈ r.tours.pairs, x p = 0 ∨ x p = 1 := fun p hp =>
    hbinary (x p) (List.mem_map_of_mem hp)
  have htour := binary_of_uncut hx hdegree hs huncut
  obtain ⟨tour, hextract, hperm, hhead, hincidence⟩ := htour.extractTour_spec hn rfl
  have hclosed := closed_around hperm
  rw [(coarse_of_binary hx).valuesOf_eq]
  refine ⟨tour, hextract, hperm, hhead, hclosed, ?_, List.map_congr_left hincidence⟩
  refine respects_of_bounds hn hclosed hattainable fun p hp => ?_
  rw [← hincidence p hp]
  exact (keepsBounds_iff hcurrent).mp hbounds p hp

def square : TourRelaxation Extended :=
  { ofInstance ⟨List.replicate 4 (List.replicate 4 (.finite 1)), "square"⟩
      ⟨SortedSet.ofList [Edge.key [.int 0, .int 1]],
        SortedSet.ofList [Edge.key [.int 0, .int 2]]⟩ with
    cuts := [⟨SortedSet.ofList [.int 0, .int 1], .finite 0, by decide⟩] }

theorem attainable_square : square.restrictions.Attainable := by
  have hfix : Move.act .apply (.fix [.int 0, .int 1]) Restrictions.empty =
      .ok ⟨SortedSet.ofList [Edge.key [.int 0, .int 1]], SortedSet.empty⟩ := rfl
  exact (Restrictions.Attainable.empty.change hfix).change (a := .apply)
    (m := .remove [.int 0, .int 2]) rfl

/-- There is a program, the tour along the border of the square is a point of it, and it is found in
it. -/
theorem program_corresponds_to_tours_square :
    (∃ program, square.next? = some program ∧
      (∀ method, (square.solveBy method).1 = square.answerTo method (some program)) ∧
      program.admits (square.tours.pairs.map (Closed.incidence 4 (around [0, 1, 2, 3]))) = true) ∧
      ∃ tour, extractTour (square.valuesOf [1, 0, 1, 1, 0, 1]) 4 = .ok tour ∧
        tour.Perm (List.range 4) ∧ square.Respects (around tour) ∧
        [1, 0, 1, 1, 0, 1] = square.tours.pairs.map (Closed.incidence 4 (around tour)) := by
  have hcuts : ∀ cut ∈ square.cuts, cut.side.IsProper square.tours.graph.vertices := by
    intro cut hcut
    obtain rfl := List.mem_singleton.mp hcut
    exact ⟨⟨.int 0, by decide⟩, by decide +kernel, ⟨.int 2, by decide +kernel, by decide⟩⟩
  obtain ⟨hanswers, hprogram, htours, hpoints⟩ := program_corresponds_to_tours square (by decide)
    (upToDate_of_none rfl) attainable_square hcuts
  have hrespects : square.Respects (around [0, 1, 2, 3]) := by
    unfold Respects
    decide +kernel
  obtain ⟨program, hnext⟩ : ∃ program, square.next? = some program :=
    Option.isSome_iff_exists.mp (by decide +kernel)
  refine ⟨⟨program, hnext, fun method => hnext ▸ hanswers method, ?_⟩, ?_⟩
  · exact (hprogram program hnext _).mpr (htours _ (closed_around (.refl _)) hrespects)
  have huncut : Uncut (Separator.ofGraph square.tours.graph .dinitz)
      (square.valuesOf [1, 0, 1, 1, 0, 1]) := by
    left
    have hnone : (((Separator.ofGraph square.tours.graph .dinitz).single
        (square.valuesOf [1, 0, 1, 1, 0, 1])).1.map Option.isNone).toOption = some true := by
      decide +kernel
    revert hnone
    rcases ((Separator.ofGraph square.tours.graph .dinitz).single
      (square.valuesOf [1, 0, 1, 1, 0, 1])).1 with fault | (_ | cut)
    · exact fun hnone => nomatch hnone
    · exact fun _ => rfl
    · exact fun hnone => nomatch hnone
  obtain ⟨tour, hextract, hperm, -, -, hrespects, hpoint⟩ := hpoints [1, 0, 1, 1, 0, 1] (by simp)
    ⟨by decide +kernel, by decide +kernel⟩ (by decide +kernel) _ (CutGraph.isOf_ofGraph _) huncut
  exact ⟨tour, hextract, hperm, hrespects, hpoint⟩

end TourRelaxation

end TourSearch
