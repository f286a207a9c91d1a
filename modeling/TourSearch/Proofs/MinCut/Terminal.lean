import TourSearch.MinCut.Terminal
import TourSearch.Proofs.Graph.Refresh
import TourSearch.Proofs.MinCut.Residual
import Mathlib

/-!
Minimum cuts between two vertices of a graph with finite weights. In units of the common denominator
the residual capacities leave a set of places by what crosses the set of vertices there
(`leaving_residual`), so that a minimum cut of the residual is one of the graph (`minCut_spec`).
-/

namespace TourSearch

open Numeric

theorem Link.capacity?_finite {link : Link Extended} {q : Rat} (hweight : link.weight = .finite q) :
    link.capacity? = if 0 < q then some (.finite q) else none := by
  rw [capacity?, hweight, Extended.scalar_zero]
  by_cases hpos : 0 < q
  · have hneg : ¬q < 0 := not_lt.mpr hpos.le
    have hreading : Scalar.reading (Extended.finite q) = .finite false q := by
      show Reading.ofRat q = _
      simp [Reading.ofRat, hneg]
    rw [if_pos (Extended.finite_lt_finite.mpr hpos), if_pos hpos, hreading]
  · rw [if_neg (fun h => hpos (Extended.finite_lt_finite.mp h)), if_neg hpos]

namespace FlowGraph

variable {g : FlowGraph Extended}

/-- A graph whose links have finite weights and join different vertices of it. -/
structure Sound (g : FlowGraph Extended) : Prop where
  nodup : g.vertices.Nodup
  weighted : Link.Weighted g.links
  ends : ∀ link ∈ g.links, link.tail ∈ g.vertices ∧ link.head ∈ g.vertices ∧ link.tail ≠ link.head

theorem Sound.mem_arcs (hg : g.Sound) {u v : Vertex} {c : Capacity} (h : (u, v, c) ∈ g.arcs) :
    u ∈ g.vertices ∧ v ∈ g.vertices ∧ u ≠ v ∧ ∃ q : Rat, 0 < q ∧ c = .finite q := by
  obtain ⟨link, hlink, hsome⟩ := List.mem_filterMap.mp h
  obtain ⟨q, -, hweight⟩ := hg.weighted link hlink
  obtain ⟨htail, hhead, hne⟩ := hg.ends link hlink
  rw [Link.capacity?_finite hweight] at hsome
  split at hsome
  · rename_i hpos
    simp only [Option.map_some, Option.some.injEq, Prod.mk.injEq] at hsome
    obtain ⟨rfl, rfl, rfl⟩ := hsome
    exact ⟨htail, hhead, hne, q, hpos, rfl⟩
  · cases hsome

/-- What crosses from one side to the other, summed over the arcs. -/
theorem Sound.crossing_eq (hg : g.Sound) (A : Vertex → Bool) :
    (g.arcs.map fun arc => if A arc.1 != A arc.2.1 then arc.2.2.amount?.getD 0 else 0).sum =
      Link.crossing g.links A := by
  have hlinks : ∀ links : List (Link Extended), Link.Weighted links →
      ((links.filterMap fun link => link.capacity?.map fun c => (link.tail, link.head, c)).map
        fun arc => if A arc.1 != A arc.2.1 then arc.2.2.amount?.getD 0 else 0).sum =
        Link.crossing links A := by
    intro links
    induction links with
    | nil => exact fun _ => rfl
    | cons link links ih =>
        intro hweighted
        obtain ⟨q, hq, hweight⟩ := hweighted link List.mem_cons_self
        have hrest := ih fun l hl => hweighted l (List.mem_cons_of_mem _ hl)
        rw [Link.crossing_cons, ← hrest, List.filterMap_cons, Link.capacity?_finite hweight]
        by_cases hpos : 0 < q
        · simp [hpos, hweight, Link.splits, Capacity.amount?]
        · have hzero : q = 0 := le_antisymm (not_lt.mp hpos) hq
          simp [hweight, hzero]
  exact hlinks g.links hg.weighted

theorem Sound.crossing_side (hg : g.Sound) (s : VertexSet) :
    g.crossing s = Link.crossing g.links fun v => decide (v ∈ s) := by
  have hfold : ∀ (arcs : List (Vertex × Vertex × Capacity)) (total : Rat),
      arcs.foldl (fun total (arc : Vertex × Vertex × Capacity) =>
        if decide (arc.1 ∈ s) != decide (arc.2.1 ∈ s) then total + arc.2.2.amount?.getD 0
        else total) total =
      total + (arcs.map fun arc => if decide (arc.1 ∈ s) != decide (arc.2.1 ∈ s) then
        arc.2.2.amount?.getD 0 else 0).sum := by
    intro arcs
    induction arcs with
    | nil => simp
    | cons arc arcs ih =>
        intro total
        rw [List.foldl_cons, ih, List.map_cons, List.sum_cons]
        split <;> ring
  rw [← hg.crossing_eq]
  exact (hfold g.arcs 0).trans (zero_add _)

/-! ### Whole units -/

theorem foldl_lcm (l : List Rat) {d : Nat} (hd : 0 < d) :
    0 < l.foldl (fun d q => d.lcm q.den) d ∧ d ∣ l.foldl (fun d q => d.lcm q.den) d ∧
      ∀ q ∈ l, q.den ∣ l.foldl (fun d q => d.lcm q.den) d := by
  induction l generalizing d with
  | nil => simp [hd]
  | cons q l ih =>
      obtain ⟨hpos, hdvd, hall⟩ := ih (Nat.lcm_pos hd q.pos)
      rw [List.foldl_cons]
      refine ⟨hpos, (Nat.dvd_lcm_left d q.den).trans hdvd, fun p hp => ?_⟩
      rcases List.mem_cons.mp hp with rfl | hp
      · exact (Nat.dvd_lcm_right d p.den).trans hdvd
      · exact hall p hp

theorem commonDenominator_pos (g : FlowGraph Extended) : 0 < g.commonDenominator :=
  (foldl_lcm g.amounts Nat.one_pos).1

theorem scaled_finite {u v : Vertex} {q : Rat} (h : (u, v, Capacity.finite q) ∈ g.arcs)
    (hq : 0 < q) : (g.scaled (.finite q) : Rat) = q * g.commonDenominator := by
  have hmem : q ∈ g.amounts := List.mem_filterMap.mpr ⟨_, h, rfl⟩
  obtain ⟨k, hk⟩ := (foldl_lcm g.amounts Nat.one_pos).2.2 q hmem
  have hdenominator : g.commonDenominator = q.den * k := hk
  have hden : (q.den : Rat) ≠ 0 := by exact_mod_cast q.den_nz
  have hnum : (q.num.natAbs : Rat) = q.num := by
    rw [Nat.cast_natAbs, abs_of_pos (Rat.num_pos.mpr hq)]
  rw [scaled, hdenominator, Nat.mul_div_cancel_left _ q.pos]
  push_cast
  rw [hnum, ← mul_assoc, Rat.mul_den_eq_num]

/-! ### Residual capacities -/

/-- Capacities between numbered vertices are added one after the other. -/
theorem leaving_foldl {n : Nat} {arcs : List (Nat × Nat × Nat)}
    (harcs : ∀ arc ∈ arcs, arc.1 < n ∧ arc.2.1 < n ∧ arc.1 ≠ arc.2.1) {r : MinCut.Residual}
    (hr : r.Square) (hsize : r.size = n) (A : Nat → Bool) :
    (arcs.foldl (fun r arc => (r.change arc.1 arc.2.1 (· + arc.2.2)).change arc.2.1 arc.1
        (· + arc.2.2)) r).Square ∧
      (arcs.foldl (fun r arc => (r.change arc.1 arc.2.1 (· + arc.2.2)).change arc.2.1 arc.1
        (· + arc.2.2)) r).size = n ∧
      (arcs.foldl (fun r arc => (r.change arc.1 arc.2.1 (· + arc.2.2)).change arc.2.1 arc.1
        (· + arc.2.2)) r).leaving A =
        r.leaving A +
          (arcs.map fun arc => if A arc.1 != A arc.2.1 then (arc.2.2 : Int) else 0).sum := by
  induction arcs generalizing r with
  | nil => simp [hr, hsize]
  | cons arc arcs ih =>
      obtain ⟨hu, hv, hne⟩ := harcs arc List.mem_cons_self
      rw [← hsize] at hu hv
      obtain ⟨hsquare, hsize', hleaving⟩ := ih
        (fun a ha => harcs a (List.mem_cons_of_mem _ ha))
        ((hr.change arc.1 arc.2.1 (· + arc.2.2)).change arc.2.1 arc.1 (· + arc.2.2)) hsize
      rw [List.foldl_cons]
      refine ⟨hsquare, hsize', ?_⟩
      rw [hleaving, MinCut.Residual.leaving_change (hr.change _ _ _) hv hu,
        MinCut.Residual.leaving_change hr hu hv, List.map_cons, List.sum_cons]
      cases A arc.1 <;> cases A arc.2.1 <;> simp <;> ring

theorem ofFn_spec (n : Nat) (A : Nat → Bool) :
    (MinCut.Residual.ofFn n fun _ _ => 0).Square ∧
      (MinCut.Residual.ofFn n fun _ _ => 0).leaving A = 0 := by
  have hcapacity : ∀ u v, (MinCut.Residual.ofFn n fun _ _ => 0).capacity u v = 0 := by
    intro u v
    simp only [MinCut.Residual.capacity, MinCut.Residual.ofFn, Array.getElem?_ofFn]
    by_cases hu : u < n <;> by_cases hv : v < n <;> simp [hu, hv]
  refine ⟨fun u hu => ⟨Array.ofFn fun _ : Fin n => 0, ?_, by simp [MinCut.Residual.ofFn]⟩, ?_⟩
  · have hlt : u < n := hu
    simp [MinCut.Residual.ofFn, hlt]
  · refine Finset.sum_eq_zero fun u _ => Finset.sum_eq_zero fun v _ => ?_
    simp [hcapacity]

/-- The residual capacities before any flow: what leaves a set of places is what crosses the
vertices there. -/
theorem Sound.leaving_residual (hg : g.Sound) {A : Vertex → Bool} {B : Nat → Bool}
    (hAB : ∀ v ∈ g.vertices, B (g.vertices.idxOf v) = A v) :
    g.residual.Square ∧ g.residual.size = g.vertices.length ∧
      (g.residual.leaving B : Rat) = Link.crossing g.links A * g.commonDenominator := by
  obtain ⟨hsquare, hzero⟩ := ofFn_spec g.vertices.length B
  have hnumbered : ∀ arc ∈ g.arcs.map (fun arc => (g.vertices.idxOf arc.1,
      g.vertices.idxOf arc.2.1, g.scaled arc.2.2)),
      arc.1 < g.vertices.length ∧ arc.2.1 < g.vertices.length ∧ arc.1 ≠ arc.2.1 := by
    intro arc harc
    obtain ⟨⟨u, v, c⟩, hmem, rfl⟩ := List.mem_map.mp harc
    obtain ⟨hu, hv, hne, -⟩ := hg.mem_arcs hmem
    refine ⟨List.idxOf_lt_length_iff.mpr hu, List.idxOf_lt_length_iff.mpr hv, fun heq => hne ?_⟩
    exact (List.idxOf_inj hu).mp heq
  obtain ⟨hsquare', hsize', hleaving⟩ := leaving_foldl hnumbered hsquare rfl B
  refine ⟨hsquare', hsize', ?_⟩
  have hresidual : g.residual.leaving B = _ := hleaving
  rw [hresidual, hzero, zero_add, List.map_map, ← hg.crossing_eq]
  have hsum : ∀ arcs : List (Vertex × Vertex × Capacity), arcs ⊆ g.arcs →
      (((arcs.map
          ((fun arc : Nat × Nat × Nat => if B arc.1 != B arc.2.1 then (arc.2.2 : Int) else 0) ∘
            fun arc => (g.vertices.idxOf arc.1, g.vertices.idxOf arc.2.1, g.scaled arc.2.2))).sum :
          Int) : Rat) =
      (arcs.map fun arc => if A arc.1 != A arc.2.1 then arc.2.2.amount?.getD 0 else 0).sum *
        g.commonDenominator := by
    intro arcs
    induction arcs with
    | nil => simp
    | cons arc arcs ih =>
        intro hsub
        obtain ⟨hu, hv, -, q, hq, hc⟩ := hg.mem_arcs (hsub List.mem_cons_self)
        have hscaled : (g.scaled arc.2.2 : Rat) = q * g.commonDenominator := by
          rw [hc]
          refine scaled_finite (u := arc.1) (v := arc.2.1) ?_ hq
          rw [← hc]
          exact hsub List.mem_cons_self
        rw [List.map_cons, List.sum_cons, List.map_cons, List.sum_cons, Int.cast_add,
          ih fun a ha => hsub (List.mem_cons_of_mem _ ha), add_mul, Function.comp_apply,
          hAB _ hu, hAB _ hv, hc]
        rw [hc] at hscaled
        split <;> simp [hscaled, Capacity.amount?]
  exact hsum g.arcs fun _ h => h

theorem Sound.joinedInfinitely_eq_false (hg : g.Sound) {u v : Vertex} (hu : u ∈ g.vertices)
    (huv : u ≠ v) : g.joinedInfinitely u v = false := by
  have hnone : (g.arcs.filterMap fun arc => if arc.2.2 = .infinite then
      some (arc.1, arc.2.1, (none : Option Vertex)) else none) = [] := by
    rw [List.filterMap_eq_nil_iff]
    intro arc harc
    obtain ⟨-, -, -, q, -, hc⟩ := hg.mem_arcs harc
    rw [hc]
    rfl
  show decide (v ∈ (Graph.build .simple g.vertices (g.arcs.filterMap fun arc =>
    if arc.2.2 = .infinite then some (arc.1, arc.2.1, (none : Option Vertex)) else none)).component
      u) = false
  rw [hnone, decide_eq_false_iff_not,
    (Graph.wellFormed_build _ _ _).mem_component (Graph.mem_vertices_build hu)]
  intro hreaches
  cases hreaches with
  | refl => exact huv rfl
  | tail _ hjoined => simp [Graph.joined_build_simple] at hjoined

/-- The cut between two vertices of a graph with finite weights: it separates them, and nothing
that separates them is crossed by less. -/
theorem Sound.minCut_spec (hg : g.Sound) {source sink : Vertex} (hsource : source ∈ g.vertices)
    (hsink : sink ∈ g.vertices) (hne : source ≠ sink) :
    ∃ side, g.minCut source sink =
        .ok (.finite (Link.crossing g.links fun v => decide (v ∈ side)), side) ∧
      source ∈ side ∧ sink ∉ side ∧ (∀ v ∈ side, v ∈ g.vertices) ∧
      ∀ A : Vertex → Bool, A source = true → A sink = false →
        Link.crossing g.links (fun v => decide (v ∈ side)) ≤ Link.crossing g.links A := by
  let places := g.residual.smallestSinkSide (g.vertices.idxOf source) (g.vertices.idxOf sink)
  let side := SortedSet.ofList
    (g.vertices.filter fun v => !places.contains (g.vertices.idxOf v))
  have hmem : ∀ v, v ∈ side ↔ v ∈ g.vertices ∧ g.vertices.idxOf v ∉ places := by
    intro v
    simp [side, SortedSet.mem_ofList]
  have hside : ∀ v ∈ g.vertices,
      MinCut.Residual.away places (g.vertices.idxOf v) = decide (v ∈ side) := by
    intro v hv
    rw [Bool.eq_iff_iff, decide_eq_true_iff, hmem]
    simp [MinCut.Residual.away, hv]
  obtain ⟨hsquare, hsize, hcrossing⟩ := hg.leaving_residual hside
  have hspec : MinCut.Residual.IsSinkSide g.residual (g.vertices.idxOf source)
      (g.vertices.idxOf sink) places := by
    refine MinCut.Residual.smallestSinkSide_spec hsquare ?_ ?_ fun heq =>
      hne ((List.idxOf_inj hsource).mp heq)
    · rw [hsize]
      exact List.idxOf_lt_length_iff.mpr hsource
    · rw [hsize]
      exact List.idxOf_lt_length_iff.mpr hsink
  refine ⟨side, ?_, (hmem source).mpr ⟨hsource, hspec.source_notMem⟩,
    fun h => ((hmem sink).mp h).2 hspec.sink_mem, fun v hv => ((hmem v).mp hv).1,
    fun A hA hA' => ?_⟩
  · rw [minCut, if_neg (not_not.mpr hsource), if_neg (not_not.mpr hsink), if_neg hne,
      hg.joinedInfinitely_eq_false hsource hne, if_neg Bool.false_ne_true, ← hg.crossing_side]
    rfl
  · obtain ⟨B, hB⟩ : ∃ B : Nat → Bool, ∀ v ∈ g.vertices, B (g.vertices.idxOf v) = A v :=
      ⟨fun i => ((g.vertices[i]?).map A).getD false, fun v hv => by simp [List.getElem?_idxOf hv]⟩
    obtain ⟨-, -, hcrossing'⟩ := hg.leaving_residual hB
    have hleast := hspec.least B ((hB source hsource).trans hA) ((hB sink hsink).trans hA')
    have hcast : (g.residual.leaving (MinCut.Residual.away places) : Rat) ≤
      g.residual.leaving B := by
      exact_mod_cast hleast
    rw [hcrossing, hcrossing'] at hcast
    exact le_of_mul_le_mul_right hcast (by exact_mod_cast g.commonDenominator_pos)

end FlowGraph

end TourSearch
