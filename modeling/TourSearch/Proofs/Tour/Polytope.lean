import TourSearch.Proofs.Linear.Vertices
import TourSearch.Proofs.Tour.Validity
import Mathlib

/-!
Exact solutions exist for few cities. The feasible values of a relaxation are a polytope
(`inside_polytope`): a pair of cities is bounded by two half-spaces, a city has two for its degree,
and a cut has one, which says that the smaller of its sides has no cycle in it. For six cities all
normals are short, so a cheapest vertex has no coordinates that are almost but not quite whole
(`exists_optimal`). A method can thus be exact, whichever solutions it prefers among the exact ones
(`solves_preferring`).
-/

namespace TourSearch

open Numeric

namespace Linear

/-- An exact solution: a feasible point of least cost whose coordinates are whole where they are
almost whole. -/
structure Best (p : Program) (point : List Rat) : Prop where
  feasible : p.admits point = true
  least : ∀ {other}, p.admits other = true → p.objective point ≤ p.objective other
  whole : ∀ x ∈ point, ∀ k : Int, |x - k| ≤ 1 / 1000000 → x = k

open Classical in
/-- Solves a program by the first of some points that is feasible, or else by any exact solution. -/
noncomputable def preferring (points : List (List Rat)) (p : Program) : Option (List Rat) :=
  (points.find? (p.admits ·)).or
    (if h : ∃ point, Best p point then some h.choose else none)

theorem solves_preferring {points : List (List Rat)} {p : Program}
    (hpoints : ∀ point ∈ points, p.admits point = true → Best p point)
    (hexists : ∀ {point}, p.admits point = true → ∃ best, Best p best) :
    Solves (preferring points) p := by
  have hbest : ∀ {point}, preferring points p = some point → Best p point := by
    intro point hpoint
    rcases Option.or_eq_some_iff.mp hpoint with hfound | ⟨-, hchosen⟩
    · exact hpoints _ (List.mem_of_find?_eq_some hfound) (List.find?_some hfound)
    · split at hchosen
      · rename_i h
        exact Option.some.inj hchosen ▸ h.choose_spec
      · cases hchosen
  refine ⟨fun hpoint hnone => ?_, fun h => (hbest h).feasible, fun h => (hbest h).least,
    fun h => (hbest h).whole⟩
  rw [preferring, Option.or_eq_none_iff, dif_pos (hexists hpoint)] at hnone
  cases hnone.2

end Linear

namespace TourRelaxation

open Linear Matrix

variable {r : TourRelaxation Extended} {c : Nat → Nat → Rat} {x : Nat × Nat → Rat} {n : Nat}

/-! ### The side of a cut that has fewer cities -/

def citiesOn (n : Nat) (side : Nat → Bool) : Finset Nat := (Finset.range n).filter (side ·)

/-- The side of a cut that has fewer cities. -/
def smaller (r : TourRelaxation Extended) (cut : Cut Extended) (k : Nat) : Bool :=
  let side := fun k => cut.contains (Instance.city k)
  if 2 * (citiesOn r.tours.cityCount side).card ≤ r.tours.cityCount then side k else !side k

theorem smaller_bne (r : TourRelaxation Extended) (cut : Cut Extended) (i j : Nat) :
    (r.smaller cut i != r.smaller cut j) =
      (cut.contains (Instance.city i) != cut.contains (Instance.city j)) := by
  unfold smaller
  dsimp only
  split <;> simp

theorem card_smaller (r : TourRelaxation Extended) (cut : Cut Extended) :
    2 * (citiesOn r.tours.cityCount (r.smaller cut)).card ≤ r.tours.cityCount := by
  by_cases hsmall : 2 * (citiesOn r.tours.cityCount fun k =>
      cut.contains (Instance.city k)).card ≤ r.tours.cityCount
  · have hsame : r.smaller cut = fun k => cut.contains (Instance.city k) :=
      funext fun k => if_pos hsmall
    rwa [hsame]
  · have hother : r.smaller cut = fun k => !cut.contains (Instance.city k) :=
      funext fun k => if_neg hsmall
    have hsum := Finset.card_filter_add_card_filter_not (s := Finset.range r.tours.cityCount)
      (fun k => cut.contains (Instance.city k) = true)
    rw [Finset.card_range] at hsum
    rw [hother]
    simp only [citiesOn, Bool.not_eq_true'] at hsmall ⊢
    simp only [Bool.not_eq_true] at hsum
    omega

/-- What leaves a side and twice what stays on it are the degrees of the cities on it. -/
theorem sum_crossing_add {l : List (Nat × Nat)} (hl : ∀ p ∈ l, p.1 < p.2 ∧ p.2 < n)
    (side : Nat → Bool) (x : Nat × Nat → Rat) :
    (l.map fun p => (if side p.1 != side p.2 then 1 else 0) * x p).sum +
        2 * (l.map fun p => (if side p.1 && side p.2 then 1 else 0) * x p).sum =
      ∑ k ∈ citiesOn n side, (l.map fun p => (if p.1 = k ∨ p.2 = k then 1 else 0) * x p).sum := by
  induction l with
  | nil => simp
  | cons p l ih =>
      obtain ⟨hlt, hle⟩ := hl p List.mem_cons_self
      have hends : ∀ k, (if p.1 = k ∨ p.2 = k then (1 : Rat) else 0) =
          (if p.1 = k then 1 else 0) + if p.2 = k then 1 else 0 := by
        intro k
        have hne : ¬(p.1 = k ∧ p.2 = k) := fun h => hlt.ne (h.1.trans h.2.symm)
        by_cases h₁ : p.1 = k <;> by_cases h₂ : p.2 = k <;> simp_all
      have hcount : ∑ k ∈ citiesOn n side, (if p.1 = k ∨ p.2 = k then (1 : Rat) else 0) =
          (if side p.1 then 1 else 0) + if side p.2 then 1 else 0 := by
        rw [Finset.sum_congr rfl fun k _ => hends k, Finset.sum_add_distrib, Finset.sum_ite_eq,
          Finset.sum_ite_eq]
        simp [citiesOn, hle, hlt.trans hle]
      simp only [List.map_cons, List.sum_cons, Finset.sum_add_distrib, ← Finset.sum_mul]
      rw [hcount, ← ih fun q hq => hl q (List.mem_cons_of_mem _ hq)]
      cases side p.1 <;> cases side p.2 <;> simp <;> ring

/-- Feasible values cost as much as there are cities, if no pair costs less than 1. -/
theorem Feasible.cityCount_le_total (hx : r.Feasible x)
    (hc : ∀ p ∈ r.tours.pairs, 1 ≤ c p.1 p.2) : (r.tours.cityCount : Rat) ≤ r.total c x := by
  have hdegrees := sum_crossing_add (l := r.tours.pairs) (fun p hp => Instance.mem_pairs.mp hp)
    (fun _ => true) x
  have hall : citiesOn r.tours.cityCount (fun _ => true) = Finset.range r.tours.cityCount :=
    Finset.filter_true_of_mem fun _ _ => rfl
  rw [hall, Finset.sum_congr rfl fun k hk => hx.degree k (Finset.mem_range.mp hk)] at hdegrees
  simp at hdegrees
  have hle : (r.tours.pairs.map x).sum ≤ r.total c x := List.sum_le_sum fun p hp =>
    le_mul_of_one_le_left ((r.bounds_cases p).1.trans (hx.bounds p hp).1) (hc p hp)
  linarith

/-! ### Feasible values as a polytope -/

def boundSpaces (r : TourRelaxation Extended) (i : Fin r.tours.pairs.length) :
    List (HalfSpace r.tours.pairs.length) :=
  let p := r.tours.pairs[i]
  let bounds := r.restrictions.bounds (Instance.edge p.1 p.2)
  [⟨Pi.single i 1, bounds.1⟩, .opposite ⟨Pi.single i 1, bounds.2⟩]

def degreeSpace (r : TourRelaxation Extended) (k : Nat) : HalfSpace r.tours.pairs.length :=
  .along r.tours.pairs (fun p => if p.1 = k ∨ p.2 = k then 1 else 0) 2

/-- The pairs on the smaller side of a cut are fewer than its cities. -/
def cutSpace (r : TourRelaxation Extended) (cut : Cut Extended) :
    HalfSpace r.tours.pairs.length :=
  .opposite (.along r.tours.pairs
    (fun p => if r.smaller cut p.1 && r.smaller cut p.2 then 1 else 0)
    ((citiesOn r.tours.cityCount (r.smaller cut)).card - 1))

def polytope (r : TourRelaxation Extended) : Finset (HalfSpace r.tours.pairs.length) :=
  ((List.finRange r.tours.pairs.length).flatMap r.boundSpaces ++
    (List.range r.tours.cityCount).flatMap (fun k =>
      [r.degreeSpace k, (r.degreeSpace k).opposite]) ++
    r.cuts.map r.cutSpace).toFinset

theorem mem_polytope {h : HalfSpace r.tours.pairs.length} : h ∈ r.polytope ↔
    (∃ i, h ∈ r.boundSpaces i) ∨
      (∃ k < r.tours.cityCount, h = r.degreeSpace k ∨ h = (r.degreeSpace k).opposite) ∨
      ∃ cut ∈ r.cuts, r.cutSpace cut = h := by
  simp only [polytope, List.mem_toFinset, List.mem_append, List.mem_flatMap, List.mem_finRange,
    true_and, List.mem_range, List.mem_map, List.mem_cons, List.not_mem_nil, or_false, or_assoc]

theorem single_dot (i : Fin n) (bound : Int) (y : Fin n → Rat) :
    (⟨Pi.single i 1, bound⟩ : HalfSpace n).row ⬝ᵥ y = y i := by
  have hrow : (⟨Pi.single i 1, bound⟩ : HalfSpace n).row = Pi.single i 1 := by
    funext j
    simp [HalfSpace.row, Pi.single_apply]
  rw [hrow, single_dotProduct, one_mul]

theorem inside_boundSpaces {i : Fin r.tours.pairs.length} {y : Fin r.tours.pairs.length → Rat} :
    (∀ h ∈ r.boundSpaces i, h.bound ≤ h.row ⬝ᵥ y) ↔
      r.lower r.tours.pairs[i] ≤ y i ∧ y i ≤ r.upper r.tours.pairs[i] := by
  simp only [boundSpaces, List.forall_mem_cons, List.not_mem_nil, false_imp_iff, implies_true,
    and_true, HalfSpace.opposite_le, single_dot, lower, upper, Int.cast_natCast]

theorem degreeSpace_dot {k : Nat} : (r.degreeSpace k).row ⬝ᵥ (fun i => x r.tours.pairs[i]) =
    (r.tours.pairs.map fun p => (if p.1 = k ∨ p.2 = k then 1 else 0) * x p).sum := by
  rw [degreeSpace, HalfSpace.along_dotProduct]
  push_cast
  rfl

theorem inside_cutSpace {cut : Cut Extended} (hdegree : ∀ k < r.tours.cityCount,
    (r.tours.pairs.map fun p => (if p.1 = k ∨ p.2 = k then 1 else 0) * x p).sum = 2) :
    (r.cutSpace cut).bound ≤ (r.cutSpace cut).row ⬝ᵥ (fun i => x r.tours.pairs[i]) ↔
      2 ≤ (r.tours.pairs.map fun p => (if cut.contains (Instance.city p.1) !=
        cut.contains (Instance.city p.2) then 1 else 0) * x p).sum := by
  have hsum := sum_crossing_add (l := r.tours.pairs) (fun p hp => Instance.mem_pairs.mp hp)
    (r.smaller cut) x
  have hon : ∀ k ∈ citiesOn r.tours.cityCount (r.smaller cut),
      (r.tours.pairs.map fun p => (if p.1 = k ∨ p.2 = k then 1 else 0) * x p).sum = 2 :=
    fun k hk => hdegree k (Finset.mem_range.mp (Finset.mem_filter.mp hk).1)
  rw [Finset.sum_congr rfl hon, Finset.sum_const, nsmul_eq_mul] at hsum
  simp only [smaller_bne] at hsum
  rw [cutSpace, HalfSpace.opposite_le, HalfSpace.along_dotProduct, HalfSpace.along_bound]
  push_cast
  constructor <;> intro h <;> linarith

theorem inside_polytope : Inside r.polytope (fun i => x r.tours.pairs[i]) ↔ r.Feasible x := by
  constructor
  · intro hinside
    have hdegree : ∀ k < r.tours.cityCount,
        (r.tours.pairs.map fun p => (if p.1 = k ∨ p.2 = k then 1 else 0) * x p).sum = 2 := by
      intro k hk
      have hge := hinside _ (mem_polytope.mpr (.inr (.inl ⟨k, hk, .inl rfl⟩)))
      have hle := HalfSpace.opposite_le.mp
        (hinside _ (mem_polytope.mpr (.inr (.inl ⟨k, hk, .inr rfl⟩))))
      rw [degreeSpace_dot] at hge hle
      exact le_antisymm hle hge
    refine ⟨fun p hp => ?_, hdegree, fun cut hcut => (inside_cutSpace hdegree).mp
      (hinside _ (mem_polytope.mpr (.inr (.inr ⟨cut, hcut, rfl⟩))))⟩
    obtain ⟨i, rfl⟩ : ∃ i : Fin r.tours.pairs.length, r.tours.pairs[i] = p := List.mem_iff_get.mp hp
    exact (inside_boundSpaces (y := fun i => x r.tours.pairs[i])).mp
      fun h hh => hinside h (mem_polytope.mpr (.inl ⟨i, hh⟩))
  · intro hx h hmem
    rcases mem_polytope.mp hmem with ⟨i, hi⟩ | ⟨k, hk, rfl | rfl⟩ | ⟨cut, hcut, rfl⟩
    · exact (inside_boundSpaces (y := fun i => x r.tours.pairs[i])).mpr
        (hx.bounds _ (List.getElem_mem _)) h hi
    · rw [degreeSpace_dot, hx.degree k hk]
      exact le_refl (2 : Rat)
    · rw [HalfSpace.opposite_le, degreeSpace_dot, hx.degree k hk]
      exact le_refl (2 : Rat)
    · exact (inside_cutSpace hx.degree).mpr (hx.cuts cut hcut)

theorem bounded_polytope (r : TourRelaxation Extended) : Bounded r.polytope := by
  intro d hd
  obtain ⟨i, hi⟩ := Function.ne_iff.mp hd
  rcases lt_or_gt_of_ne hi with hneg | hpos
  · refine ⟨_, mem_polytope.mpr (.inl ⟨i, List.mem_cons_self⟩), ?_⟩
    rwa [single_dot]
  · refine ⟨_, mem_polytope.mpr (.inl ⟨i, List.mem_cons_of_mem _ List.mem_cons_self⟩), ?_⟩
    rw [HalfSpace.opposite_dotProduct, single_dot]
    exact neg_lt_zero.mpr hpos

/-! ### Few cities -/

theorem length_pairs_le (hn : r.tours.cityCount ≤ 6) : r.tours.pairs.length ≤ 15 := by
  have hall : ∀ n ≤ 6, ((List.range n).flatMap fun i =>
      ((List.range n).filter fun j => decide (i < j)).map fun j => (i, j)).length ≤ 15 := by decide
  exact hall _ hn

theorem length_filter_degree_le (hn : r.tours.cityCount ≤ 6) {k : Nat}
    (hk : k < r.tours.cityCount) :
    (r.tours.pairs.filter fun p => p.1 = k ∨ p.2 = k).length ≤ 6 := by
  have hall : ∀ n ≤ 6, ∀ k < n, (((List.range n).flatMap fun i =>
      ((List.range n).filter fun j => decide (i < j)).map fun j => (i, j)).filter
        fun p => p.1 = k ∨ p.2 = k).length ≤ 6 := by decide
  exact hall _ hn k hk

/-- At most three cities are on the smaller side, and fewer than six pairs. -/
theorem length_filter_smaller_le (hn : r.tours.cityCount ≤ 6) (cut : Cut Extended) :
    (r.tours.pairs.filter fun p => r.smaller cut p.1 && r.smaller cut p.2).length ≤ 6 := by
  have hfew : (citiesOn r.tours.cityCount (r.smaller cut)).card ≤ 3 := by
    have := r.card_smaller cut
    omega
  have hsub : (r.tours.pairs.filter fun p => r.smaller cut p.1 && r.smaller cut p.2).toFinset ⊆
      (citiesOn r.tours.cityCount (r.smaller cut)).offDiag := by
    intro p hp
    obtain ⟨hpair, hside⟩ := List.mem_filter.mp (List.mem_toFinset.mp hp)
    obtain ⟨hlt, hle⟩ := Instance.mem_pairs.mp hpair
    rw [Bool.and_eq_true] at hside
    exact Finset.mem_offDiag.mpr
      ⟨Finset.mem_filter.mpr ⟨Finset.mem_range.mpr (hlt.trans hle), hside.1⟩,
        Finset.mem_filter.mpr ⟨Finset.mem_range.mpr hle, hside.2⟩, hlt.ne⟩
  rw [← List.toFinset_card_of_nodup (r.tours.nodup_pairs.filter _)]
  refine (Finset.card_le_card hsub).trans ?_
  rw [Finset.offDiag_card]
  generalize (citiesOn r.tours.cityCount (r.smaller cut)).card = a at hfew
  interval_cases a <;> decide

theorem sum_sq_indicator {β : Type} (l : List β) (q : β → Bool) :
    (l.map fun b => (if q b then (1 : Int) else 0) ^ 2).sum = (l.filter q).length := by
  induction l with
  | nil => rfl
  | cons b l ih =>
      rw [List.map_cons, List.sum_cons, ih, List.filter_cons]
      split
      · push_cast [List.length_cons]
        ring
      · ring

theorem short_polytope (hn : r.tours.cityCount ≤ 6) :
    ∀ h ∈ r.polytope, ∑ j, h.normal j ^ 2 ≤ (6 : Nat) := by
  have hsingle : ∀ (i : Fin r.tours.pairs.length) (bound : Int),
      ∑ j, (⟨Pi.single i 1, bound⟩ : HalfSpace _).normal j ^ 2 = 1 := by
    intro i bound
    simp [Pi.single_apply, ite_pow]
  have hdegree : ∀ k < r.tours.cityCount, ∑ j, (r.degreeSpace k).normal j ^ 2 ≤ (6 : Nat) := by
    intro k hk
    have := length_filter_degree_le hn hk
    rw [degreeSpace, HalfSpace.sum_sq_along]
    have hcount := sum_sq_indicator r.tours.pairs fun p => decide (p.1 = k ∨ p.2 = k)
    simp only [decide_eq_true_eq] at hcount
    rw [hcount]
    exact_mod_cast this
  intro h hmem
  rcases mem_polytope.mp hmem with ⟨i, hi⟩ | ⟨k, hk, rfl | rfl⟩ | ⟨cut, hcut, rfl⟩
  · simp only [boundSpaces, List.mem_cons, List.not_mem_nil, or_false] at hi
    rcases hi with rfl | rfl
    · rw [hsingle]
      norm_num
    · rw [HalfSpace.sum_sq_opposite, hsingle]
      norm_num
  · exact hdegree k hk
  · rw [HalfSpace.sum_sq_opposite]
    exact hdegree k hk
  · rw [cutSpace, HalfSpace.sum_sq_opposite, HalfSpace.sum_sq_along, sum_sq_indicator]
    exact_mod_cast length_filter_smaller_le hn cut

/-- Up to six cities have optimal values if they have feasible ones. -/
theorem exists_optimal (hn : r.tours.cityCount ≤ 6) (c : Nat → Nat → Rat) (hx : r.Feasible x) :
    ∃ y, r.Optimal c y := by
  obtain ⟨v, hv, hleast⟩ := exists_least_vertex r.bounded_polytope
    (fun i => c r.tours.pairs[i].1 r.tours.pairs[i].2) (inside_polytope.mpr hx)
  obtain ⟨y, hy⟩ := exists_eq_map r.tours.nodup_pairs (List.length_ofFn (f := v))
  obtain rfl : v = fun i => y r.tours.pairs[i] := by
    funext i
    have hi : (List.ofFn v)[i]? = (r.tours.pairs.map y)[i]? := by rw [hy]
    simpa using hi
  have hcost : ∀ z : Nat × Nat → Rat, (fun i : Fin r.tours.pairs.length =>
      c r.tours.pairs[i].1 r.tours.pairs[i].2) ⬝ᵥ (fun i => z r.tours.pairs[i]) = r.total c z :=
    fun z => Fin.sum_univ_fun_getElem _ fun p => c p.1 p.2 * z p
  have hsmall : ((6 : Nat) : Int) ^ r.tours.pairs.length < 1000000 ^ 2 :=
    calc ((6 : Nat) : Int) ^ r.tours.pairs.length
        ≤ ((6 : Nat) : Int) ^ 15 := pow_le_pow_right₀ (by norm_num) (length_pairs_le hn)
      _ < 1000000 ^ 2 := by norm_num
  refine ⟨y, ⟨inside_polytope.mp hv.inside, fun p hp k hk => ?_⟩, fun {z} hz => ?_⟩
  · obtain ⟨i, rfl⟩ : ∃ i : Fin r.tours.pairs.length, r.tours.pairs[i] = p :=
      List.mem_iff_get.mp hp
    exact hv.whole (short_polytope hn) (by norm_num) hsmall i k (by rwa [Int.cast_ofNat])
  · rw [← hcost, ← hcost]
    exact hleast _ (inside_polytope.mpr hz)

theorem Optimal.best (hy : r.Optimal c x) : Best (r.program c) (r.tours.pairs.map x) where
  feasible := admits_iff.mpr hy.toFeasible
  least := by
    intro other hother
    obtain ⟨z, rfl⟩ := exists_values hother
    rw [objective_eq, objective_eq]
    exact hy.least (admits_iff.mp hother)
  whole := by
    intro z hz k hk
    obtain ⟨p, hp, rfl⟩ := List.mem_map.mp hz
    exact hy.whole p hp k hk

/-- The programs of up to six cities are solved exactly, whichever exact solutions are preferred. -/
theorem solves_program (hn : r.tours.cityCount ≤ 6) {points : List (List Rat)}
    (hpoints : ∀ point ∈ points, (r.program c).admits point = true → Best (r.program c) point) :
    Solves (preferring points) (r.program c) :=
  solves_preferring hpoints fun hpoint => by
    obtain ⟨x, rfl⟩ := exists_values hpoint
    obtain ⟨y, hy⟩ := exists_optimal hn c (admits_iff.mp hpoint)
    exact ⟨_, hy.best⟩

end TourRelaxation

end TourSearch
