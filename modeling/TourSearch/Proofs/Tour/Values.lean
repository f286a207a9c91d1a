import TourSearch.Proofs.Branching
import TourSearch.Proofs.Separation.Scan
import TourSearch.Proofs.Tour.Formulation
import Mathlib

/-!
The edge values of an exact solution. Values near to whole numbers are whole, so that nothing is
lost when small values are left out: what crosses a set in the working graph is what crosses it in
the linear program (`Coarse.leaving_eq`). Integral values without a violated cut are those of a tour
(`Found.binary`).
-/

namespace TourSearch

open Numeric

namespace TourRelaxation

variable {r : TourRelaxation Extended} {x : Nat × Nat → Rat}

/-- Feasible values that are whole where they are near to whole numbers. -/
structure Found (r : TourRelaxation Extended) (x : Nat × Nat → Rat) : Prop
    extends Feasible r x where
  whole : ∀ p ∈ r.tours.pairs, ∀ k : Int, |x p - k| ≤ 1 / 1000000 → x p = k

theorem bounds_cases (r : TourRelaxation Extended) (p : Nat × Nat) :
    0 ≤ r.lower p ∧ r.upper p ≤ 1 := by
  unfold lower upper Restrictions.bounds
  split
  · norm_num
  · split <;> norm_num

theorem Found.nonneg (hx : r.Found x) {p : Nat × Nat} (hp : p ∈ r.tours.pairs) : 0 ≤ x p :=
  (r.bounds_cases p).1.trans (hx.bounds p hp).1

theorem Found.le_one (hx : r.Found x) {p : Nat × Nat} (hp : p ∈ r.tours.pairs) : x p ≤ 1 :=
  (hx.bounds p hp).2.trans (r.bounds_cases p).2

/-- A small value is zero. -/
theorem Found.eq_zero (hx : r.Found x) {p : Nat × Nat} (hp : p ∈ r.tours.pairs)
    (hsmall : x p ≤ 1 / 1000000) : x p = 0 := by
  have := hx.whole p hp 0
    (by rw [Int.cast_zero, sub_zero, abs_of_nonneg (hx.nonneg hp)]; exact hsmall)
  simpa using this

structure Coarse (r : TourRelaxation Extended) (x : Nat × Nat → Rat) : Prop where
  nonneg : ∀ p ∈ r.tours.pairs, 0 ≤ x p
  eq_zero : ∀ p ∈ r.tours.pairs, x p ≤ 1 / 1000000 → x p = 0

theorem Found.coarse (hx : r.Found x) : r.Coarse x :=
  ⟨fun _ hp => hx.nonneg hp, fun _ hp => hx.eq_zero hp⟩

theorem Coarse.valuesOf_eq (hx : r.Coarse x) : r.valuesOf (r.tours.pairs.map x) =
    ⟨TourGraph.entriesOf x (r.tours.pairs.filter fun p => decide (0 < x p))⟩ := by
  have hthreshold : (valueThreshold : Extended) = .finite (1 / 1000000000) := by
    show Extended.finite (mkRat 1 1000000000) = _
    norm_num [Rat.mkRat_eq_div]
  have hentries : ∀ l : List (Nat × Nat), l ⊆ r.tours.pairs →
      ((l.map fun p => (p, x p)).filterMap fun (px : (Nat × Nat) × Rat) =>
        if (valueThreshold : Extended) < .finite px.2 then
          some (Instance.edge px.1.1 px.1.2, Extended.finite px.2) else none) =
        TourGraph.entriesOf x (l.filter fun p => decide (0 < x p)) := by
    intro l
    induction l with
    | nil => exact fun _ => rfl
    | cons p l ih =>
        intro hsub
        have hrest := ih fun q hq => hsub (List.mem_cons_of_mem _ hq)
        have hp := hsub (List.mem_cons_self (a := p) (l := l))
        by_cases hpos : 0 < x p
        · have hkept : (valueThreshold : Extended) < .finite (x p) := by
            rw [hthreshold, Extended.finite_lt_finite]
            by_contra hsmall
            have := hx.eq_zero p hp (by linarith)
            linarith
          rw [List.map_cons, List.filterMap_cons, List.filter_cons_of_pos (by simpa using hpos)]
          simp only [hkept, if_true]
          rw [hrest]
          rfl
        · have hleft : ¬(valueThreshold : Extended) < .finite (x p) := by
            rw [hthreshold, Extended.finite_lt_finite]
            linarith
          rw [List.map_cons, List.filterMap_cons, List.filter_cons_of_neg (by simpa using hpos)]
          simp only [hleft, if_false]
          rw [hrest]
  rw [valuesOf, zip_map_self]
  exact congrArg Mapping.mk (hentries r.tours.pairs fun _ h => h)

theorem finite_entriesOf (x : Nat × Nat → Rat) (l : List (Nat × Nat)) :
    EdgeValues.Finite ⟨TourGraph.entriesOf x l⟩ := by
  intro entry hentry
  obtain ⟨p, -, rfl⟩ := List.mem_map.mp hentry
  exact ⟨x p, rfl⟩

theorem Coarse.finite (hx : r.Coarse x) : (r.valuesOf (r.tours.pairs.map x)).Finite := by
  rw [hx.valuesOf_eq]
  exact finite_entriesOf x _

/-- What crosses a set in the working graph is what crosses it in the linear program. -/
theorem Coarse.leaving_eq (hx : r.Coarse x) (side : VertexSet) :
    (r.valuesOf (r.tours.pairs.map x)).leaving .simple side = (r.tours.pairs.map fun p =>
      (if decide (Instance.city p.1 ∈ side) != decide (Instance.city p.2 ∈ side) then 1 else 0) *
        x p).sum := by
  have hentries : ∀ l : List (Nat × Nat), l ⊆ r.tours.pairs →
      EdgeValues.leaving .simple ⟨TourGraph.entriesOf x (l.filter fun p => decide (0 < x p))⟩ side =
        (l.map fun p => (if decide (Instance.city p.1 ∈ side) != decide (Instance.city p.2 ∈ side)
          then 1 else 0) * x p).sum := by
    intro l
    induction l with
    | nil => exact fun _ => rfl
    | cons p l ih =>
        intro hsub
        have hrest := ih fun q hq => hsub (List.mem_cons_of_mem _ hq)
        have hp := hsub (List.mem_cons_self (a := p) (l := l))
        rw [List.map_cons, List.sum_cons, ← hrest]
        rcases (hx.nonneg p hp).lt_or_eq with hpos | hzero
        · have hlarge : (1 / 1000000 : Rat) < x p := by
            by_contra hsmall
            have := hx.eq_zero p hp (not_lt.mp hsmall)
            linarith
          have hsplits : EdgeValues.splits .simple (fun v => decide (v ∈ side))
              (Instance.edge p.1 p.2) =
                (decide (Instance.city p.1 ∈ side) != decide (Instance.city p.2 ∈ side)) := rfl
          rw [List.filter_cons_of_pos (by simpa using hpos)]
          show EdgeValues.crossing .simple ⟨(Instance.edge p.1 p.2, .finite (x p)) ::
            TourGraph.entriesOf x _⟩ _ = _
          rw [EdgeValues.crossing_cons, hsplits]
          simp only [Extended.precision_eq, Extended.finite_lt_finite, Extended.toRat_finite,
            hlarge, true_and, ite_mul, one_mul, zero_mul]
          rfl
        · rw [List.filter_cons_of_neg (by simp [← hzero]), ← hzero, mul_zero, zero_add]
  rw [hx.valuesOf_eq]
  exact hentries r.tours.pairs fun _ h => h

theorem Coarse.refresh_ok (hx : r.Coarse x) {g : CutGraph Extended} (hg : g.IsOf r.tours.graph) :
    (g.refresh (r.valuesOf (r.tours.pairs.map x))).1 = .ok () := by
  rw [hx.valuesOf_eq]
  refine hg.refresh_eq_ok fun entry hentry => ?_
  obtain ⟨p, hp, rfl⟩ := List.mem_map.mp hentry
  obtain ⟨hlt, hn⟩ := Instance.mem_pairs.mp (List.mem_filter.mp hp).1
  refine ⟨Instance.city p.1, Instance.city p.2, rfl, ?_⟩
  rw [hg.skeleton_eq, CutGraph.skeleton_joined r.tours.wellFormed_graph]
  exact ⟨fun h => hlt.ne (Instance.city_inj h), Or.inl (Instance.joined_complete hlt hn)⟩

/-- Without a violated cut, something crosses from every set of cities to the others. -/
theorem Coarse.crossed (hx : r.Coarse x)
    (huncut : ∀ s : VertexSet, s.IsProper r.tours.graph.vertices →
      2 - 1 / 1000000 ≤ (r.valuesOf (r.tours.pairs.map x)).leaving .simple s)
    (S : Nat → Bool) {a b : Nat} (ha : a < r.tours.cityCount) (hb : b < r.tours.cityCount)
    (hSa : S a = true) (hSb : S b = false) :
    0 < (r.tours.pairs.map fun p => (if S p.1 != S p.2 then 1 else 0) * x p).sum := by
  have hcity : ∀ k < r.tours.cityCount, (Instance.city k ∈ SortedSet.ofList
      (((List.range r.tours.cityCount).filter S).map Instance.city) ↔ S k = true) := by
    intro k hk
    rw [SortedSet.mem_ofList, List.mem_map]
    constructor
    · rintro ⟨j, hj, hjk⟩
      rw [← Instance.city_inj hjk]
      exact (List.mem_filter.mp hj).2
    · exact fun hSk => ⟨k, List.mem_filter.mpr ⟨List.mem_range.mpr hk, hSk⟩, rfl⟩
  have hproper : (SortedSet.ofList (((List.range r.tours.cityCount).filter S).map
      Instance.city)).IsProper r.tours.graph.vertices := by
    rw [Instance.graph, Instance.vertices_complete]
    refine ⟨⟨_, (hcity a ha).mpr hSa⟩, fun v hv => ?_, _,
      List.mem_map_of_mem (List.mem_range.mpr hb), fun h => ?_⟩
    · rw [SortedSet.mem_ofList] at hv
      obtain ⟨k, hk, rfl⟩ := List.mem_map.mp hv
      exact List.mem_map_of_mem (List.mem_filter.mp hk).1
    · rw [(hcity b hb).mp h] at hSb
      cases hSb
  have hcrossed := huncut _ hproper
  rw [hx.leaving_eq] at hcrossed
  refine lt_of_lt_of_le (by norm_num) (hcrossed.trans (le_of_eq ?_))
  refine congrArg List.sum (List.map_congr_left fun p hp => ?_)
  obtain ⟨hlt, hn⟩ := Instance.mem_pairs.mp hp
  have h₁ : decide (Instance.city p.1 ∈ _) = S p.1 := Bool.eq_iff_iff.mpr
    (decide_eq_true_iff.trans (hcity p.1 (hlt.trans hn)))
  have h₂ : decide (Instance.city p.2 ∈ _) = S p.2 := Bool.eq_iff_iff.mpr
    (decide_eq_true_iff.trans (hcity p.2 hn))
  rw [h₁, h₂]

/-- Integral values are 0 or 1, and without a violated cut they make up a tour. -/
theorem Found.binary (hx : r.Found x)
    (hintegral : (r.valuesOf (r.tours.pairs.map x)).isIntegral (.finite (1 / 1000000)) = .ok true)
    (huncut : ∀ s : VertexSet, s.IsProper r.tours.graph.vertices →
      2 - 1 / 1000000 ≤ (r.valuesOf (r.tours.pairs.map x)).leaving .simple s) :
    Binary r.tours x := by
  refine ⟨fun p hp => ?_, hx.degree, hx.coarse.crossed huncut⟩
  · rcases (hx.nonneg hp).lt_or_eq with hpos | hzero
    · right
      rw [hx.coarse.valuesOf_eq] at hintegral
      obtain ⟨integral, hsame, hnone⟩ := integralEntries_finite (finite_entriesOf x
        (r.tours.pairs.filter fun p => decide (0 < x p)))
      obtain rfl := Except.ok.inj (hsame.symm.trans hintegral)
      obtain ⟨f, hf, hfract⟩ := fraction_finite (x p)
      have hlisted : (Instance.edge p.1 p.2, Extended.finite (x p)) ∈
          TourGraph.entriesOf x (r.tours.pairs.filter fun p => decide (0 < x p)) :=
        List.mem_map_of_mem (f := fun p => (Instance.edge p.1 p.2, Extended.finite (x p)))
          (List.mem_filter.mpr ⟨hp, by simpa using hpos⟩)
      have hnot := hnone rfl _ _ _ hlisted hf
      rw [hfract hpos.le, Extended.scalar_one, Extended.finite_sub_finite,
        Extended.finite_lt_finite, Extended.finite_lt_finite] at hnot
      -- The value is near to its whole part or to the next number, and therefore whole.
      have hwhole : ∃ k : Int, x p = k := by
        have hsplit := Int.floor_add_fract (x p)
        have hnonneg := Int.fract_nonneg (x p)
        have hlt := Int.fract_lt_one (x p)
        rcases not_and_or.mp hnot with hlow | hhigh
        · refine ⟨⌊x p⌋, hx.whole p hp _ ?_⟩
          rw [abs_of_nonneg (by linarith)]
          linarith
        · refine ⟨⌊x p⌋ + 1, hx.whole p hp _ ?_⟩
          rw [abs_of_nonpos (by push_cast; linarith)]
          push_cast
          linarith
      obtain ⟨k, hk⟩ := hwhole
      have hle := hx.le_one hp
      rw [hk] at hpos hle ⊢
      have hkpos : 0 < k := by exact_mod_cast hpos
      have hkle : k ≤ 1 := by exact_mod_cast hle
      have : k = 1 := by omega
      rw [this, Int.cast_one]
    · exact Or.inl hzero.symm
end TourRelaxation

end TourSearch
