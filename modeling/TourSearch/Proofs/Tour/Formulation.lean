import TourSearch.Proofs.Search.Partners
import TourSearch.Proofs.Separation.Least
import TourSearch.Proofs.Tour.Extract
import TourSearch.Tour.Relaxation
import Mathlib

/-!
What the linear program of a relaxation says. Its points are values of the pairs of cities, and they
are feasible when they keep to the restrictions, give every city degree 2 and cross every stored cut
twice (`admits_iff`). Every closed tour that respects the restrictions is feasible, as long as the
cuts are proper sets (`feasible_incidence`).
-/

namespace TourSearch

open Numeric

/-! ### Exact solutions -/

namespace Linear

theorem dot_map {β : Type} (l : List β) (f x : β → Rat) :
    dot (l.map f) (l.map x) = (l.map fun b => f b * x b).sum := by
  have hfold : ∀ (l : List β) (total : Rat),
      ((l.map f).zip (l.map x)).foldl (fun total (ab : Rat × Rat) => total + ab.1 * ab.2) total =
        total + (l.map fun b => f b * x b).sum := by
    intro l
    induction l with
    | nil => simp
    | cons b l ih =>
        intro total
        rw [List.map_cons, List.map_cons, List.zip_cons_cons, List.foldl_cons, ih, List.map_cons,
          List.sum_cons, add_assoc]
  exact (hfold l 0).trans (zero_add _)

/-- A method solves a program exactly: it finds an optimal point whenever there is a feasible one,
and coordinates within a millionth of a whole number are whole. -/
structure Solves (method : Program → Option (List Rat)) (p : Program) : Prop where
  finds : ∀ {point}, p.admits point = true → method p ≠ none
  feasible : ∀ {point}, method p = some point → p.admits point = true
  optimal : ∀ {point other}, method p = some point → p.admits other = true →
    p.objective point ≤ p.objective other
  whole : ∀ {point}, method p = some point → ∀ x ∈ point, ∀ k : Int, |x - k| ≤ 1 / 1000000 → x = k

end Linear

theorem exists_eq_map {β γ : Type} [DecidableEq β] [Inhabited γ] {l : List β} (hl : l.Nodup)
    {point : List γ} (hlength : point.length = l.length) : ∃ x : β → γ, point = l.map x := by
  refine ⟨fun b => point.getD (l.idxOf b) default, List.ext_getElem? fun i => ?_⟩
  rw [List.getElem?_map]
  rcases Nat.lt_or_ge i l.length with hi | hi
  · rw [List.getElem?_eq_getElem hi, Option.map_some, hl.idxOf_getElem,
      List.getElem?_eq_getElem (by omega), List.getD_eq_getElem _ _ (by omega)]
  · rw [List.getElem?_eq_none (by omega), List.getElem?_eq_none hi]
    rfl

theorem zip_map_self {β γ : Type} (l : List β) (f : β → γ) :
    l.zip (l.map f) = l.map fun b => (b, f b) := by
  induction l with
  | nil => rfl
  | cons b l ih => rw [List.map_cons, List.zip_cons_cons, ih, List.map_cons]

namespace TourRelaxation

variable {r : TourRelaxation Extended} {c : Nat → Nat → Rat}

def lower (r : TourRelaxation Extended) (p : Nat × Nat) : Rat :=
  ((r.restrictions.bounds (Instance.edge p.1 p.2)).1 : Nat)

def upper (r : TourRelaxation Extended) (p : Nat × Nat) : Rat :=
  ((r.restrictions.bounds (Instance.edge p.1 p.2)).2 : Nat)

def program (r : TourRelaxation Extended) (c : Nat → Nat → Rat) : Linear.Program :=
  ⟨r.tours.pairs.map fun p => ⟨c p.1 p.2, r.lower p, r.upper p⟩,
    (List.range r.tours.cityCount).map r.degreeRow ++ r.cuts.map r.cutRow⟩

theorem exactCost?_eq (ht : r.tours.Priced c) {i j : Nat} (hi : i < r.tours.cityCount)
    (hj : j < r.tours.cityCount) : r.exactCost? i j = some (c i j) := by
  rw [exactCost?, ht.cost i hi j hj]
  show (Reading.ofRat (c i j)).toRat? = _
  by_cases hneg : c i j < 0 <;> simp [Reading.ofRat, Reading.toRat?, hneg]

theorem mapM_eq_some {β γ : Type} {f : β → Option γ} {g : β → γ} {l : List β}
    (h : ∀ b ∈ l, f b = some (g b)) : l.mapM f = some (l.map g) := by
  induction l with
  | nil => rfl
  | cons b l ih =>
      rw [List.mapM_cons, h b List.mem_cons_self,
        ih fun b' hb' => h b' (List.mem_cons_of_mem _ hb')]
      rfl

theorem program?_eq (ht : r.tours.Priced c) : r.program? r.currentBounds = some (r.program c) := by
  have hzip : r.tours.pairs.zip r.currentBounds =
      r.tours.pairs.map fun p => (p, r.restrictions.bounds (Instance.edge p.1 p.2)) := by
    exact zip_map_self _ _
  have hcolumns : r.columns? r.currentBounds =
      some (r.tours.pairs.map fun p => ⟨c p.1 p.2, r.lower p, r.upper p⟩) := by
    rw [columns?, hzip, List.mapM_map]
    refine mapM_eq_some fun p hp => ?_
    obtain ⟨h₁, h₂⟩ := Instance.mem_pairs.mp hp
    show (r.exactCost? p.1 p.2).map _ = _
    rw [exactCost?_eq ht (h₁.trans h₂) h₂]
    rfl
  rw [program?, hcolumns]
  rfl

structure Feasible (r : TourRelaxation Extended) (x : Nat × Nat → Rat) : Prop where
  bounds : ∀ p ∈ r.tours.pairs, r.lower p ≤ x p ∧ x p ≤ r.upper p
  degree : ∀ k < r.tours.cityCount,
    (r.tours.pairs.map fun p => (if p.1 = k ∨ p.2 = k then 1 else 0) * x p).sum = 2
  cuts : ∀ cut ∈ r.cuts, 2 ≤ (r.tours.pairs.map fun p =>
    (if cut.contains (Instance.city p.1) != cut.contains (Instance.city p.2) then 1 else 0) *
      x p).sum

theorem degreeRow_admits_iff {x : Nat × Nat → Rat} {k : Nat} :
    (r.degreeRow k).admits (r.tours.pairs.map x) = true ↔
      (r.tours.pairs.map fun p => (if p.1 = k ∨ p.2 = k then 1 else 0) * x p).sum = 2 := by
  show (Linear.dot (r.tours.pairs.map fun p => if p.1 = k ∨ p.2 = k then 1 else 0)
    (r.tours.pairs.map x) == 2) = true ↔ _
  rw [beq_iff_eq, Linear.dot_map]

theorem cutRow_admits_iff {x : Nat × Nat → Rat} {cut : Cut Extended} :
    (r.cutRow cut).admits (r.tours.pairs.map x) = true ↔
      2 ≤ (r.tours.pairs.map fun p => (if cut.contains (Instance.city p.1) !=
        cut.contains (Instance.city p.2) then 1 else 0) * x p).sum := by
  show decide (2 ≤ Linear.dot (r.tours.pairs.map fun p => if cut.contains (Instance.city p.1) !=
    cut.contains (Instance.city p.2) then 1 else 0) (r.tours.pairs.map x)) = true ↔ _
  rw [decide_eq_true_iff, Linear.dot_map]

theorem admits_iff {x : Nat × Nat → Rat} :
    (r.program c).admits (r.tours.pairs.map x) = true ↔ r.Feasible x := by
  have hrows : ((r.program c).rows.all (·.admits (r.tours.pairs.map x))) = true ↔
      (∀ k < r.tours.cityCount,
        (r.tours.pairs.map fun p => (if p.1 = k ∨ p.2 = k then 1 else 0) * x p).sum = 2) ∧
      ∀ cut ∈ r.cuts, 2 ≤ (r.tours.pairs.map fun p => (if cut.contains (Instance.city p.1) !=
        cut.contains (Instance.city p.2) then 1 else 0) * x p).sum := by
    simp only [program, List.all_append, List.all_map, Bool.and_eq_true, List.all_eq_true,
      Function.comp_apply, List.mem_range, degreeRow_admits_iff, cutRow_admits_iff]
  have hbounds : ((r.program c).columns.zip (r.tours.pairs.map x)).all
      (fun (cx : Linear.Column × Rat) => decide (cx.1.lower ≤ cx.2) && decide (cx.2 ≤ cx.1.upper)) =
        true ↔ ∀ p ∈ r.tours.pairs, r.lower p ≤ x p ∧ x p ≤ r.upper p := by
    simp only [program, List.zip_map', List.all_map, List.all_eq_true, Function.comp_apply,
      Bool.and_eq_true, decide_eq_true_iff]
  have hlength : (r.tours.pairs.map x).length = (r.program c).columns.length := by
    rw [List.length_map, program, List.length_map]
  rw [Linear.Program.admits, Bool.and_eq_true, Bool.and_eq_true, beq_iff_eq, hrows]
  constructor
  · rintro ⟨⟨-, hb⟩, hd, hc⟩
    exact ⟨hbounds.mp hb, hd, hc⟩
  · rintro ⟨hb, hd, hc⟩
    exact ⟨⟨hlength, hbounds.mpr hb⟩, hd, hc⟩

theorem objective_eq {x : Nat × Nat → Rat} : (r.program c).objective (r.tours.pairs.map x) =
    (r.tours.pairs.map fun p => c p.1 p.2 * x p).sum := by
  rw [Linear.Program.objective, program, List.map_map]
  exact Linear.dot_map _ _ _

/-- A point that the program admits is given by values of the pairs. -/
theorem exists_values {point : List Rat} (h : (r.program c).admits point = true) :
    ∃ x, point = r.tours.pairs.map x := by
  rw [Linear.Program.admits, Bool.and_eq_true, Bool.and_eq_true, beq_iff_eq] at h
  refine exists_eq_map r.tours.nodup_pairs ?_
  rw [h.1.1, program, List.length_map]

end TourRelaxation

/-! ### Tours are feasible -/

namespace Instance

theorem city_inj {i j : Nat} (h : city i = city j) : i = j := by
  simpa [city] using h

theorem mem_key_edge {v : Vertex} {i j : Nat} : v ∈ (edge i j).key ↔ v = city i ∨ v = city j := by
  simp [Edge.key, edge, SortedSet.mem_ofList]

theorem key_edge_eq_iff {a b i j : Nat} :
    (edge a b).key = (edge i j).key ↔ (a = i ∧ b = j) ∨ (a = j ∧ b = i) := by
  constructor
  · intro h
    have hcities : ∀ k, (k = a ∨ k = b) ↔ (k = i ∨ k = j) := by
      intro k
      have := mem_key_edge (v := city k) (i := a) (j := b)
      rw [h, mem_key_edge] at this
      constructor
      · rintro (rfl | rfl)
        · exact (this.mpr (Or.inl rfl)).imp city_inj city_inj
        · exact (this.mpr (Or.inr rfl)).imp city_inj city_inj
      · rintro (rfl | rfl)
        · exact (this.mp (Or.inl rfl)).imp city_inj city_inj
        · exact (this.mp (Or.inr rfl)).imp city_inj city_inj
    have ha := (hcities a).mp (Or.inl rfl)
    have hb := (hcities b).mp (Or.inr rfl)
    have hi := (hcities i).mpr (Or.inl rfl)
    have hj := (hcities j).mpr (Or.inr rfl)
    omega
  · rintro (⟨rfl, rfl⟩ | ⟨rfl, rfl⟩)
    · rfl
    · refine SortedSet.ext_mem fun v => ?_
      rw [mem_key_edge, mem_key_edge, or_comm]

theorem vertices_complete (n : Nat) : (Graph.complete n).vertices = (List.range n).map city := by
  refine Graph.vertices_build (List.nodup_range.map fun i j h => city_inj h) ?_
  intro e he
  simp only [List.mem_flatMap, List.mem_range, List.mem_map, List.mem_filter,
    decide_eq_true_eq] at he
  obtain ⟨i, hi, j, ⟨hj, -⟩, rfl⟩ := he
  exact ⟨List.mem_map_of_mem (List.mem_range.mpr hi), List.mem_map_of_mem (List.mem_range.mpr hj)⟩

theorem wellFormed_graph {α : Type} (t : Instance α) : t.graph.WellFormed :=
  Graph.wellFormed_build _ _ _

theorem joined_complete {i j n : Nat} (hij : i < j) (hj : j < n) :
    (Graph.complete n).Joined (city i) (city j) := by
  rw [Graph.complete, Graph.joined_build_simple]
  refine ⟨(city i, city j, none), ?_, Or.inl ⟨rfl, rfl⟩⟩
  simp only [List.mem_flatMap, List.mem_range, List.mem_map, List.mem_filter, decide_eq_true_eq]
  exact ⟨i, by omega, j, ⟨hj, hij⟩, rfl⟩

end Instance

namespace Closed

variable {n : Nat} {v : Nat → Nat} {c : Nat → Nat → Rat}

def tour (c : Nat → Nat → Rat) (n : Nat) (v : Nat → Nat) : Tour where
  edges := { k | ∃ i < n, k = (Instance.edge (v i) (v (i + 1))).key }
  cost := ∑ i ∈ Finset.range n, c (v i) (v (i + 1))

theorem key_mem_edges {p : Nat × Nat} :
    (Instance.edge p.1 p.2).key ∈ (tour c n v).edges ↔ ∃ i < n, Joins (v i) (v (i + 1)) p := by
  refine exists_congr fun i => and_congr_right fun _ => ?_
  rw [Instance.key_edge_eq_iff, Joins, Prod.ext_iff, Prod.ext_iff]

end Closed

namespace TourRelaxation

variable {r : TourRelaxation Extended} {c : Nat → Nat → Rat} {v : Nat → Nat}

/-- A tour uses every fixed pair of cities and no forbidden one. -/
def Respects (r : TourRelaxation Extended) (v : Nat → Nat) : Prop :=
  ∀ p ∈ r.tours.pairs,
    ((Instance.edge p.1 p.2).key ∈ r.restrictions.fixed →
      ∃ i < r.tours.cityCount, Closed.Joins (v i) (v (i + 1)) p) ∧
    ((Instance.edge p.1 p.2).key ∈ r.restrictions.forbidden →
      ∀ i < r.tours.cityCount, ¬Closed.Joins (v i) (v (i + 1)) p)

theorem respects_of_allows
    (hallows : r.restrictions.Allows (Closed.tour c r.tours.cityCount v).edges) :
    r.Respects v := by
  refine fun p _ => ⟨fun hfixed => Closed.key_mem_edges.mp (hallows.1 _ hfixed),
    fun hforbidden i hi hleg => ?_⟩
  exact hallows.2 _ hforbidden (Closed.key_mem_edges.mpr ⟨i, hi, hleg⟩)

/-- A tour that respects the restrictions is feasible. -/
theorem feasible_incidence (hn : 3 ≤ r.tours.cityCount) (hv : Closed r.tours.cityCount v)
    (hrespects : r.Respects v)
    (hcuts : ∀ cut ∈ r.cuts, cut.side.IsProper r.tours.graph.vertices) :
    r.Feasible (Closed.incidence r.tours.cityCount v) := by
  refine ⟨fun p hp => ?_, fun k hk => ?_, fun cut hcut => ?_⟩
  · have hcases := hv.incidence_cases hn p
    unfold lower upper Restrictions.bounds
    by_cases hfixed : (Instance.edge p.1 p.2).key ∈ r.restrictions.fixed
    · obtain ⟨i, hi, hleg⟩ := (hrespects p hp).1 hfixed
      simp [Restrictions.isFixed, hfixed, hv.incidence_of_leg hn hi hleg]
    · by_cases hforbidden : (Instance.edge p.1 p.2).key ∈ r.restrictions.forbidden
      · have hnone := (hrespects p hp).2 hforbidden
        simp [Restrictions.isFixed, Restrictions.isForbidden, hfixed, hforbidden,
          Closed.incidence_of_not_leg hnone]
      · simp only [Restrictions.isFixed, Restrictions.isForbidden, hfixed, hforbidden,
          decide_false, Bool.false_eq_true, if_false]
        rcases hcases with h | h <;> rw [h] <;> norm_num
  · have hsum := hv.sum_incidence hn
      (f := fun a b => if a = k ∨ b = k then (1 : Rat) else 0) (by simp [or_comm])
    rw [hsum, hv.sum_degree hn hk]
  · have hsum := hv.sum_incidence hn (f := fun a b => if cut.contains (Instance.city a) !=
      cut.contains (Instance.city b) then (1 : Rat) else 0) fun a b => by rw [bne_comm]
    obtain ⟨⟨a, ha⟩, hsub, b, hb, hout⟩ := hcuts cut hcut
    rw [Instance.graph, Instance.vertices_complete] at hsub hb
    obtain ⟨i, hi, rfl⟩ := List.mem_map.mp (hsub a ha)
    obtain ⟨j, hj, rfl⟩ := List.mem_map.mp hb
    rw [hsum]
    exact hv.two_le_crossings (fun k => cut.contains (Instance.city k)) (List.mem_range.mp hi)
      (List.mem_range.mp hj) (by simpa [Cut.contains] using ha) (by simpa [Cut.contains] using hout)

end TourRelaxation

end TourSearch
