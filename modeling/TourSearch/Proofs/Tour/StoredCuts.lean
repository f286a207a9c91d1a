import TourSearch.Proofs.Search.Termination
import TourSearch.Proofs.Tour.Validity
import Mathlib

/-!
Relaxations that uphold their cuts. A relaxation that stores cuts as that of tours does takes none
of those it has, and a search to which it offers no new one gives up. The separator leaves out the
values up to the precision and calls a cut violated below 2 less the precision; a relaxation counts
every value and stops at 2. The two agree as long as the values left out at a stored cut add up to
no more than the precision: then every cut that separation finds is new. They do not agree in
general: two such values are enough to let a stored cut appear violated.
-/

namespace TourSearch

open Numeric

namespace EdgeValues

def total (kind : GraphKind) (values : EdgeValues Extended) (side : VertexSet) : Rat :=
  (values.entries.map fun (e, x) =>
    if splits kind (fun v => decide (v ∈ side)) e = true then x.toRat else 0).sum

def dust (kind : GraphKind) (values : EdgeValues Extended) (side : VertexSet) : Rat :=
  (values.entries.map fun (e, x) =>
    if x ≤ precision ∧ splits kind (fun v => decide (v ∈ side)) e = true then x.toRat else 0).sum

theorem total_eq {values : EdgeValues Extended} (hfinite : values.Finite) (kind : GraphKind)
    (side : VertexSet) :
    values.total kind side = values.leaving kind side + values.dust kind side := by
  rw [total, leaving, crossing, dust, ← List.sum_map_add]
  refine congrArg List.sum (List.map_congr_left fun entry hentry => ?_)
  obtain ⟨e, x⟩ := entry
  obtain ⟨q, rfl : x = .finite q⟩ := hfinite (e, x) hentry
  simp only [Extended.precision_eq, Extended.finite_lt_finite, Extended.finite_le_finite,
    Extended.toRat_finite]
  by_cases hsplits : splits kind (fun v => decide (v ∈ side)) e = true
  · rcases le_or_gt q (1 / 1000000) with hsmall | hlarge
    · simp only [hsplits, hsmall, not_lt.mpr hsmall, and_true, if_true, if_false, zero_add]
    · simp only [hsplits, hlarge, not_le.mpr hlarge, and_true, if_true, if_false, add_zero]
  · simp [hsplits]

end EdgeValues

theorem TourRelaxation.isConflict_of_perform {call : Call Move} {r r' : TourRelaxation Extended}
    {fault : Fault} (hfails : (perform call).Fails r fault r') : fault.IsConflict := by
  cases call with
  | notify => cases (Prod.mk.inj hfails).1
  | act a d =>
      simp only [Action.Fails, Action.runOn, perform, act] at hfails
      cases hact : Move.act a d.move r.restrictions with
      | ok s => simp [hact, bind, Except.bind, pure, Except.pure] at hfails
      | error cause =>
          simp only [hact, bind, Except.bind, Prod.mk.injEq, Except.error.injEq] at hfails
          exact hfails.1 ▸ Move.isConflict_of_act hact

namespace Search

variable {μ σ : Type} {s : Solver Extended μ σ} {store : σ → TourRelaxation Extended}

/-- Cuts are added as the relaxation of tours adds them. -/
structure StoresCuts (p : Problem Extended μ σ) (store : σ → TourRelaxation Extended) : Prop where
  count : ∀ cuts w, ((p.addCuts cuts).runOn w).1 = .ok ((store w).addCuts cuts).1
  stored : ∀ cuts w, store ((p.addCuts cuts).runOn w).2 = ((store w).addCuts cuts).2

/-- Values that are not negative and cross every stored cut with at least 2. -/
structure Upholds (kind : GraphKind) (cuts : List (Cut Extended)) (values : EdgeValues Extended) :
    Prop where
  finite : values.Finite
  nonneg : ∀ entry ∈ values.entries, 0 ≤ entry.2.toRat
  crossed : ∀ cut ∈ cuts, 2 ≤ values.total kind cut.side

/-- What is left out at the stored cuts adds up to no more than the precision. -/
def Clear (kind : GraphKind) (cuts : List (Cut Extended)) (values : EdgeValues Extended) : Prop :=
  ∀ cut ∈ cuts, values.dust kind cut.side ≤ 1 / 1000000

/-- Cuts found in values that uphold the stored ones are new. -/
theorem Upholds.describes_eq_false {config : SearchConfig Extended} {g : Graph} (hg : g.WellFormed)
    {separator : Separator Extended} (hgraph : separator.graph.IsOf g)
    {stored found : List (Cut Extended)} {values : EdgeValues Extended}
    (hupholds : Upholds g.kind stored values) (hclear : Clear g.kind stored values)
    (hfound : (Run.separated config separator values).1 = .ok found) {all : VertexSet}
    (hall : ∀ v ∈ g.vertices, v ∈ all) {cut : Cut Extended} (hcut : cut ∈ found) :
    TourRelaxation.describes all stored cut.side = false := by
  obtain ⟨config', hcuts, hfound⟩ := Run.exists_separated_eq (List.ne_nil_of_mem hcut) hfound
  have hok := Run.refresh_of_separated hcuts hfound
  obtain ⟨found', hfound', hseparates⟩ := Run.separated_spec hcuts hg hgraph hupholds.finite hok
  obtain rfl := Except.ok.inj (hfound'.symm.trans hfound)
  have hcrossed : ∀ c ∈ stored, 2 - 1 / 1000000 ≤ values.leaving g.kind c.side := by
    intro c hc
    have htotal := hupholds.crossed c hc
    have hdust := hclear c hc
    rw [EdgeValues.total_eq hupholds.finite] at htotal
    linarith
  exact TourRelaxation.describes_eq_false
    (EdgeValues.leaving_diff hg hgraph hupholds.finite hok hall) hcrossed
    (hseparates.violated cut hcut).2.2

/-- A relaxation that stores cuts as that of tours does, whose answers cross every stored cut with
at least 2, and which leaves out at a stored cut no more than the precision, is never charged with
rejecting all violated cuts: whatever the mode for cuts, every cut that separation finds in one of
its answers is neither stored nor opposite to a stored one. The vertices of the graph are cities. -/
theorem upheld_cuts_not_rejected (s : Solver Extended μ σ) (timeLimit : Option Extended)
    (nodeLimit : Option Int) (kind : GraphKind) (vs : List Vertex)
    (edges : List (Vertex × Vertex × Option Vertex))
    (hgraph : s.separator.graph.IsOf (Graph.build kind vs edges))
    (store : σ → TourRelaxation Extended)
    (hstores : StoresCuts s.problem store)
    (hquiet : ∀ count node, ¬s.problem.Raises (.rejectedCuts count node))
    (hanswers : ∀ {h rounds run z values w},
      Reaches s.problem (Solver.limited s.config timeLimit nodeLimit) (outset s)
        (.solving h rounds) run → s.problem.solve.Gives run.world (.solved z values) w →
          (∀ v ∈ (Graph.build kind vs edges).vertices, v ∈ (store w).allCities) ∧
            Upholds kind (store w).cuts values ∧ Clear kind (store w).cuts values) :
    (∀ {h rounds run z values w cuts},
      Reaches s.problem (Solver.limited s.config timeLimit nodeLimit) (outset s)
        (.solving h rounds) run → s.problem.solve.Gives run.world (.solved z values) w →
          (Run.separated s.config run.separator values).1 = .ok cuts → ∀ cut ∈ cuts,
            TourRelaxation.describes (store w).allCities (store w).cuts cut.side = false) ∧
      ∀ steps count node,
        (s.solve steps timeLimit nodeLimit).1 ≠ .error (.rejectedCuts count node) := by
  have hnew : ∀ {h rounds run z values w cuts},
      Reaches s.problem (Solver.limited s.config timeLimit nodeLimit) (outset s)
        (.solving h rounds) run → s.problem.solve.Gives run.world (.solved z values) w →
          (Run.separated s.config run.separator values).1 = .ok cuts → ∀ cut ∈ cuts,
            TourRelaxation.describes (store w).allCities (store w).cuts cut.side = false := by
    intro h rounds run z values w cuts hreached hsolved hfound cut hcut
    obtain ⟨hcities, hupholds, hclear⟩ := hanswers hreached hsolved
    have hof : run.separator.graph.IsOf (Graph.build kind vs edges) :=
      hreached.like.1.trans hgraph
    rw [← Graph.build_kind kind vs edges] at hupholds hclear
    exact hupholds.describes_eq_false (Graph.wellFormed_build kind vs edges) hof hclear hfound
      hcities hcut
  refine ⟨hnew, fun steps count node hsolve => ?_⟩
  rcases complete_source hsolve with hraises | hown | ⟨h, rounds, run, hreached, hrejects⟩
  · exact hquiet count node hraises
  · rcases hown with hown | hown | hown | hown <;> cases hown
  · obtain ⟨z, values, w, cuts, w', hsolved, hfound, hviolated, hadded⟩ := hrejects
    have hpos := TourRelaxation.addCuts_pos hviolated (hnew hreached hsolved hfound)
    have hcount := hstores.count cuts w
    rw [hadded] at hcount
    exact absurd (Except.ok.inj hcount) (Nat.ne_of_lt hpos)

def pairedValues : EdgeValues Extended :=
  ⟨[([.int 0, .int 1], .finite 1), ([.int 2, .int 3], .finite 1)]⟩

def sharedValues (a b : Rat) : EdgeValues Extended :=
  ⟨[([.int 0, .int 1], .finite 1), ([.int 0, .int 2], .finite (1 - a)),
    ([.int 0, .int 3], .finite a), ([.int 1, .int 2], .finite b),
    ([.int 1, .int 3], .finite (1 - b)), ([.int 2, .int 3], .finite 1)]⟩

def sharingSolver (a b : Rat) : Solver Extended Move (TourRelaxation Extended) where
  problem := { TourRelaxation.problem fun _ => none with
    solve := fun r => (.ok (if r.cuts.isEmpty then .solved (.finite 7) pairedValues
      else .solved (.finite 8) (sharedValues a b)), r) }
  config := { SearchConfig.standard with maxCutsPerRound := 1 }
  queue := OpenQueue.empty .bestFirst
  separator := Separator.ofGraph (Graph.build .simple [] squareEdges) .dinitz
  listeners := []
  world := .ofInstance ⟨List.replicate 4 (List.replicate 4 (.finite 1)), "square"⟩ .empty
  solution := none

theorem storesCuts_sharing (a b : Rat) : StoresCuts (sharingSolver a b).problem id where
  count := fun _ _ => rfl
  stored := fun _ _ => rfl

theorem not_raises_sharing (a b : Rat) (count : Nat) (node : Int) :
    ¬(sharingSolver a b).problem.Raises (.rejectedCuts count node) := by
  intro hraises
  cases hraises with
  | solve failed => cases (Prod.mk.inj failed).1
  | addCuts failed => cases (Prod.mk.inj failed).1
  | perform failed => exact TourRelaxation.isConflict_of_perform failed
  | candidates failed => exact BlamesValues.candidates _ _ _ _ (Prod.mk.inj failed).1
  | afterNode failed => cases (Prod.mk.inj failed).1

def pairSide : VertexSet := SortedSet.ofList [.int 0, .int 1]

theorem total_shared (a b : Rat) : (sharedValues a b).total .simple pairSide = 2 := by
  have hcrosses : ∀ i ∈ [0, 1], ∀ j ∈ [2, 3],
      EdgeValues.splits .simple (fun v => decide (v ∈ pairSide)) [.int i, .int j] = true := by
    decide +kernel
  have hinside :
      EdgeValues.splits .simple (fun v => decide (v ∈ pairSide)) [.int 0, .int 1] = false ∧
      EdgeValues.splits .simple (fun v => decide (v ∈ pairSide)) [.int 2, .int 3] = false := by
    decide +kernel
  simp [EdgeValues.total, sharedValues, hcrosses, hinside]
  ring

/-- As long as nothing but the cut between the two pairs is stored, the answers uphold it. -/
theorem upholds_sharing {a b : Rat} (ha : 0 ≤ a ∧ a ≤ 1) (hb : 0 ≤ b ∧ b ≤ 1)
    {r w : TourRelaxation Extended} {z : Extended} {values : EdgeValues Extended}
    (hcuts : ∀ cut ∈ r.cuts, cut.side = pairSide)
    (hsolved : (sharingSolver a b).problem.solve.Gives r (.solved z values) w) :
    w = r ∧ (r.cuts = [] ∨ values = sharedValues a b) ∧ Upholds .simple r.cuts values := by
  obtain ⟨hanswer, rfl⟩ := Prod.mk.inj hsolved
  refine ⟨rfl, ?_⟩
  cases hempty : r.cuts with
  | nil =>
      simp only [hempty, List.isEmpty_nil, if_true] at hanswer
      cases hanswer
      refine ⟨Or.inl rfl, ?_, ?_, by simp⟩
      · simp [EdgeValues.Finite, pairedValues]
      · simp [pairedValues]
  | cons cut rest =>
      simp only [hempty, List.isEmpty_cons, Bool.false_eq_true, if_false] at hanswer
      cases hanswer
      refine ⟨Or.inr rfl, ?_, ?_, fun c hc => ?_⟩
      · simp [EdgeValues.Finite, sharedValues]
      · simp [sharedValues, ha, hb]
      · rw [hcuts c (hempty ▸ hc), total_shared]

/-- Both diagonals too small for the working graph. -/
def dustySolver : Solver Extended Move (TourRelaxation Extended) :=
  sharingSolver (1 / 1048576) (1 / 1048576)

/-- One diagonal too small for it, and the other without a value. -/
def dustedSolver : Solver Extended Move (TourRelaxation Extended) := sharingSolver (1 / 1048576) 0

/-- Two values below the precision are enough to have a stored cut found again. Every answer upholds
the stored cuts, and yet the search gives up. -/
theorem stored_cut_found_again :
    StoresCuts dustySolver.problem id ∧
      (∀ count node, ¬dustySolver.problem.Raises (.rejectedCuts count node)) ∧
      (∀ {h rounds run z values w},
        Reaches dustySolver.problem dustySolver.config (outset dustySolver) (.solving h rounds)
          run →
          dustySolver.problem.solve.Gives run.world (.solved z values) w →
            (∀ v ∈ dustySolver.separator.graph.vertices, v ∈ w.allCities) ∧
              Upholds .simple w.cuts values) ∧
      (dustySolver.solve 10 none none).1 = .error (.rejectedCuts 1 0) := by
  have hfault : (match (dustySolver.solve 10 none none).1 with
      | .error fault => some fault
      | .ok _ => none) = some (.rejectedCuts 1 0) := by decide +kernel
  refine ⟨storesCuts_sharing _ _, not_raises_sharing _ _, ?_, by split at hfault <;> simp_all⟩
  intro h rounds run z values w hreached hsolved
  have hend : orbit dustySolver.problem dustySolver.config (outset dustySolver) 4 = none := by
    decide +kernel
  obtain ⟨hcities, hcuts⟩ := Reaches.of_orbit
    (P := fun _ run => (∀ v ∈ dustySolver.separator.graph.vertices, v ∈ run.world.allCities) ∧
      ∀ cut ∈ run.world.cuts, cut.side = pairSide) hend (by decide +kernel) hreached
  obtain ⟨rfl, -, hupholds⟩ := upholds_sharing (by norm_num) (by norm_num) hcuts hsolved
  exact ⟨hcities, hupholds⟩

/-- With a single such value the same cut is not found again, and the search comes to its result. -/
theorem upheld_cuts_not_rejected_dusted :
    (∀ count node, (dustedSolver.solve 10 none none).1 ≠ .error (.rejectedCuts count node)) ∧
      (sharedValues (1 / 1048576) 0).dust .simple pairSide = 1 / 1048576 ∧
      (dustedSolver.solve 10 none none).1.toOption.map (·.status) = some .optimal ∧
      (dustedSolver.solve 10 none none).2.1.world.cuts.map (·.side) = [pairSide] := by
  have hdust : (sharedValues (1 / 1048576) 0).dust .simple pairSide = 1 / 1048576 := by
    decide +kernel
  have hend : orbit dustedSolver.problem dustedSolver.config (outset dustedSolver) 8 = none := by
    decide +kernel
  refine ⟨fun count node => ?_, hdust, by decide +kernel, by decide +kernel⟩
  refine (upheld_cuts_not_rejected dustedSolver none none .simple [] _ (CutGraph.isOf_ofGraph _) id
    (storesCuts_sharing _ _) (not_raises_sharing _ _) ?_).2 10 count node
  intro h rounds run z values w hreached hsolved
  obtain ⟨hcities, hcuts⟩ := Reaches.of_orbit
    (P := fun _ run => (∀ v ∈ dustedSolver.separator.graph.vertices, v ∈ run.world.allCities) ∧
      ∀ cut ∈ run.world.cuts, cut.side = pairSide) hend (by decide +kernel) hreached
  obtain ⟨rfl, hshared, hupholds⟩ := upholds_sharing (by norm_num) (by norm_num) hcuts hsolved
  refine ⟨hcities, hupholds, fun cut hcut => ?_⟩
  rcases hshared with hnone | rfl
  · rw [id, hnone] at hcut
    cases hcut
  · rw [hcuts cut hcut, hdust]
    norm_num

end Search

end TourSearch
