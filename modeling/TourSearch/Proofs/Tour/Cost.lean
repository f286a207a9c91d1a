import TourSearch.Proofs.Tour.Correspondence
import TourSearch.Proofs.Tour.Optimality
import Mathlib

/-!
What a tour costs. Costs are added up from a list of pairs of cities, and where they are the same in
both directions neither the order of the pairs nor their direction matters (`costOf_congr`). So a
tour costs the same from wherever and in whichever direction it is passed through, and it costs as
much as the used edges that it was read off: for values of 0 and 1 this is the objective of the
linear program (`tourCost_is_objective`).
-/

namespace TourSearch

open Numeric

namespace Numeric.Extended

theorem add_add_comm (a b c : Extended) : a + b + c = a + c + b := by
  cases a <;> cases b <;> cases c <;> first | rfl | simp [add_right_comm]

end Numeric.Extended

/-! ### Places of a list -/

theorem placed_error {β : Type} {l : List β} {i : Int} {fault : Fault}
    (h : placed l i = .error fault) : fault = .indexOutOfRange := by
  unfold placed at h
  generalize (if i < 0 then i + (l.length : Int) else i) = place at h
  dsimp only at h
  split at h
  · exact (Except.error.inj h).symm
  · split at h
    · cases h
    · exact (Except.error.inj h).symm

/-- The place in lists of a length that a number stands for, counted from either end. -/
def place? (n : Nat) (i : Int) : Option Nat :=
  let place := if i < 0 then i + n else i
  if 0 ≤ place ∧ place < n then some place.toNat else none

theorem lt_of_place? {n k : Nat} {i : Int} (h : place? n i = some k) : k < n := by
  unfold place? at h
  generalize (if i < 0 then i + (n : Int) else i) = place at h
  dsimp only at h
  split at h
  · obtain rfl := Option.some.inj h
    omega
  · cases h

theorem placed_eq {β : Type} (l : List β) (i : Int) : placed l i =
    match place? l.length i with
    | some k => placed l (k : Int)
    | none => .error .indexOutOfRange := by
  unfold place? placed
  generalize (if i < 0 then i + (l.length : Int) else i) = place
  dsimp only
  by_cases hinside : 0 ≤ place ∧ place < l.length
  · have hlow : ¬place < 0 := by omega
    have hcast : ¬((place.toNat : Int) < 0) := by omega
    rw [if_pos hinside]
    simp only [hlow, hcast, if_false, Int.toNat_natCast]
  · rw [if_neg hinside]
    split
    · rfl
    · rw [List.getElem?_eq_none (by omega)]

namespace TourGraph

theorem usedPairs_lt {n : Nat} {entries : List ((Nat × Nat) × Extended)}
    (hrange : ∀ e ∈ entries, e.1.1 < n ∧ e.1.2 < n) :
    ∀ p ∈ usedPairs entries, p.1 < n ∧ p.2 < n := by
  intro p hp
  obtain ⟨e, he, rfl⟩ := List.mem_map.mp hp
  exact hrange e (List.mem_filter.mp he).1

/-- The legs of an extracted tour are the used edges. -/
theorem legs_of_extracted {n : Nat} {entries : List ((Nat × Nat) × Extended)} {tour : List Nat}
    (hn : 1 ≤ n) (hrange : ∀ e ∈ entries, e.1.1 < n ∧ e.1.2 < n)
    (hextract : extractTour (keyed entries) n = .ok tour) (hsome : tour ≠ []) :
    undirected (legs tour) = undirected (usedPairs entries) := by
  obtain ⟨g, -, htwo, hextract', hget⟩ := extractTour_keyed hn hrange
  obtain rfl := Except.ok.inj (hextract.symm.trans hextract')
  by_cases hfound : (∀ adjacent ∈ g, adjacent.length = 2) ∧ (0 :: g.walk n none 0).length = n
  · rw [if_pos hfound]
    have hends : TwoEnds g n (usedPairs entries) := ⟨usedPairs_lt hrange, hget, htwo.mp hfound.1⟩
    exact hends.undirected_eq hfound.2 (hends.walk_spec hn).2.2.1
  · exact absurd (if_neg hfound) hsome

end TourGraph

namespace Instance

variable {t : Instance Extended}

/-! ### Sums in any order -/

def costOf {α : Type} [Scalar α] (t : Instance α) (pairs : List (Int × Int)) : Except Fault α := do
  return Scalar.sum (← pairs.mapM fun p => t.cost [p.1, p.2])

theorem tourCost_eq_costOf (tour : List Int) : t.tourCost tour = t.costOf (legs tour) := rfl

theorem cost_error {i j : Int} {fault : Fault} (h : t.cost [i, j] = .error fault) :
    fault = .indexOutOfRange := by
  have hbetween : (placed t.costs i >>= fun row => placed row j) = .error fault := h
  cases hrow : placed t.costs i with
  | error cause =>
      rw [hrow] at hbetween
      obtain rfl : cause = fault := Except.error.inj hbetween
      exact placed_error hrow
  | ok row =>
      rw [hrow] at hbetween
      exact placed_error hbetween

def spend (total cost : Except Fault Extended) : Except Fault Extended := do
  return (← total) + (← cost)

theorem costOf_eq_foldl (pairs : List (Int × Int)) :
    t.costOf pairs = (pairs.map fun p => t.cost [p.1, p.2]).foldl spend (.ok Scalar.zero) := by
  have hfailed : ∀ (xs : List (Except Fault Extended)) (fault : Fault),
      xs.foldl spend (.error fault) = .error fault := by
    intro xs fault
    induction xs with
    | nil => rfl
    | cons x xs ih => exact ih
  have hall : ∀ (pairs : List (Int × Int)) (total : Extended),
      (do return (← pairs.mapM fun p => t.cost [p.1, p.2]).foldl (· + ·) total) =
        (pairs.map fun p => t.cost [p.1, p.2]).foldl spend (.ok total) := by
    intro pairs
    induction pairs with
    | nil => exact fun _ => rfl
    | cons p pairs ih =>
        intro total
        rw [List.mapM_cons, List.map_cons, List.foldl_cons]
        cases hcost : t.cost [p.1, p.2] with
        | error fault => exact (hfailed _ fault).symm
        | ok cost =>
            show _ = (pairs.map fun p => t.cost [p.1, p.2]).foldl spend (.ok (total + cost))
            rw [← ih (total + cost)]
            cases pairs.mapM fun p => t.cost [p.1, p.2] <;> rfl
  exact hall pairs Scalar.zero

/-- Only the costs of the pairs matter, not their order: all failures are the same. -/
theorem costOf_congr {pairs pairs' : List (Int × Int)}
    (h : (pairs.map fun p => t.cost [p.1, p.2]).Perm (pairs'.map fun p => t.cost [p.1, p.2])) :
    t.costOf pairs = t.costOf pairs' := by
  rw [costOf_eq_foldl, costOf_eq_foldl]
  refine h.foldl_eq' (fun x hx y hy total => ?_) _
  obtain ⟨p, -, rfl⟩ := List.mem_map.mp hx
  obtain ⟨q, -, rfl⟩ := List.mem_map.mp hy
  cases total with
  | error fault => rfl
  | ok total =>
      cases hp : t.cost [p.1, p.2] with
      | error fault =>
          cases hq : t.cost [q.1, q.2] with
          | error fault' => rw [cost_error hp, cost_error hq]
          | ok y => rfl
      | ok x =>
          cases hq : t.cost [q.1, q.2] with
          | error fault => rfl
          | ok y => exact congrArg Except.ok (Extended.add_add_comm total x y)

theorem exists_costOf {pairs : List (Int × Int)}
    (h : ∀ p ∈ pairs, ∃ x, t.cost [p.1, p.2] = .ok x) : ∃ total, t.costOf pairs = .ok total := by
  rw [costOf_eq_foldl]
  generalize (Scalar.zero : Extended) = total
  induction pairs generalizing total with
  | nil => exact ⟨total, rfl⟩
  | cons p pairs ih =>
      obtain ⟨x, hx⟩ := h p List.mem_cons_self
      rw [List.map_cons, List.foldl_cons, hx]
      exact ih (fun q hq => h q (List.mem_cons_of_mem p hq)) (total + x)

/-! ### Tables that are the same in both directions -/

/-- A square table, the same in both directions also for cities counted from the end. -/
structure TwoWay (t : Instance Extended) : Prop where
  large : 3 ≤ t.cityCount
  square : ∀ row ∈ t.costs, row.length = t.cityCount
  symm : ∀ i j : Int, t.cost [i, j] = t.cost [j, i]

theorem costBetween_eq (hsquare : ∀ row ∈ t.costs, row.length = t.cityCount) (i j : Int) :
    t.costBetween i j =
      match place? t.cityCount i, place? t.cityCount j with
      | some k, some l => t.costBetween k l
      | _, _ => .error .indexOutOfRange := by
  have hcosts : placed t.costs i = _ := placed_eq t.costs i
  rw [show t.costs.length = t.cityCount from rfl] at hcosts
  rw [costBetween, hcosts]
  cases hi : place? t.cityCount i with
  | none => rfl
  | some k =>
      have hk : k < t.costs.length := lt_of_place? hi
      have hrow := placed_eq t.costs[k] j
      rw [hsquare _ (List.getElem_mem hk)] at hrow
      cases hj : place? t.cityCount j with
      | none =>
          rw [hj] at hrow
          show (placed t.costs k >>= fun row => placed row j) = _
          rw [placed_of_lt hk]
          exact hrow
      | some l =>
          rw [hj] at hrow
          show (placed t.costs k >>= fun row => placed row j) =
            placed t.costs k >>= fun row => placed row l
          rw [placed_of_lt hk]
          exact hrow

theorem twoWay_of_make {costs : List (List Extended)} {name : String}
    (hmake : make costs name = .ok t)
    (hsymm : ∀ i < t.cityCount, ∀ j < t.cityCount, t.costBetween i j = t.costBetween j i) :
    t.TwoWay := by
  unfold make at hmake
  split at hmake
  · cases hmake
  · split at hmake
    · cases hmake
    · rename_i hlarge hany
      obtain rfl := Except.ok.inj hmake
      have hsquare : ∀ row ∈ costs, row.length = costs.length := by simpa using hany
      refine ⟨Nat.le_of_not_lt hlarge, hsquare, fun i j => ?_⟩
      show costBetween _ i j = costBetween _ j i
      rw [costBetween_eq hsquare, costBetween_eq hsquare j i]
      cases hi : place? costs.length i with
      | none => cases hj : place? costs.length j <;> simp [cityCount, hi, hj]
      | some k =>
          cases hj : place? costs.length j with
          | none => simp [cityCount, hi, hj]
          | some l =>
              simp only [cityCount, hi, hj]
              exact hsymm k (lt_of_place? hi) l (lt_of_place? hj)

theorem TwoWay.exists_cost (ht : t.TwoWay) {i j : Nat} (hi : i < t.cityCount)
    (hj : j < t.cityCount) : ∃ x, t.cost [(i : Int), (j : Int)] = .ok x := by
  have hi' : i < t.costs.length := hi
  have hj' : j < t.costs[i].length := by
    rw [ht.square _ (List.getElem_mem hi')]
    exact hj
  refine ⟨t.costs[i][j], ?_⟩
  show (placed t.costs i >>= fun row => placed row j) = _
  rw [placed_of_lt hi']
  exact placed_of_lt hj'

theorem TwoWay.exists_costOf (ht : t.TwoWay) {pairs : List (Nat × Nat)}
    (hrange : ∀ p ∈ pairs, p.1 < t.cityCount ∧ p.2 < t.cityCount) :
    ∃ total, t.costOf (pairs.map (Prod.map Int.ofNat Int.ofNat)) = .ok total := by
  refine Instance.exists_costOf (List.forall_mem_map.mpr fun p hp => ?_)
  exact ht.exists_cost (hrange p hp).1 (hrange p hp).2

theorem TwoWay.costOf_eq (ht : t.TwoWay) {pairs pairs' : List (Nat × Nat)}
    (h : TourGraph.undirected pairs = TourGraph.undirected pairs') :
    t.costOf (pairs.map (Prod.map Int.ofNat Int.ofNat)) =
      t.costOf (pairs'.map (Prod.map Int.ofNat Int.ofNat)) := by
  have hmap := (Multiset.coe_eq_coe.mp h).map
    (Sym2.lift ⟨fun i j : Nat => t.cost [(i : Int), (j : Int)], fun i j => ht.symm i j⟩)
  apply costOf_congr
  rw [List.map_map, List.map_map] at hmap ⊢
  exact hmap

/-! ### Tours passed through in other ways -/

theorem legs_eq_zip_rotate (tour : List Int) : legs tour = tour.zip (tour.rotate 1) := by
  cases tour with
  | nil => rfl
  | cons i tour => rw [legs, rotateLeft_cons, List.rotate_cons_succ, List.rotate_zero]

theorem legs_rotate (tour : List Int) (k : Nat) : legs (tour.rotate k) = (legs tour).rotate k := by
  rw [legs_eq_zip_rotate, legs_eq_zip_rotate, List.rotate_rotate, Nat.add_comm,
    ← List.rotate_rotate]
  exact (List.zipWith_rotate_distrib Prod.mk _ _ k (List.length_rotate _ _).symm).symm

theorem tourCost_rotate (tour : List Int) (k : Nat) :
    t.tourCost (tour.rotate k) = t.tourCost tour := by
  rw [tourCost_eq_costOf, tourCost_eq_costOf, legs_rotate]
  exact costOf_congr ((List.rotate_perm _ k).map _)

/-- The legs of a reversed tour are its legs, reversed and begun at another city. -/
theorem legs_reverse (tour : List Int) :
    legs tour.reverse = ((legs (tour.rotate (tour.length - 1))).map Prod.swap).reverse := by
  cases tour with
  | nil => rfl
  | cons i tour =>
      have hback : ((i :: tour).rotate tour.length).rotate 1 = i :: tour := by
        rw [List.rotate_rotate]
        exact List.rotate_length (i :: tour)
      have hturn : (i :: tour).reverse.rotate 1 = ((i :: tour).rotate tour.length).reverse := by
        rw [List.rotate_reverse]
        cases tour with
        | nil => simp
        | cons j tour =>
            rw [Nat.mod_eq_of_lt (by simp)]
            rfl
      rw [legs_eq_zip_rotate, legs_eq_zip_rotate, List.length_cons, Nat.add_sub_cancel, hback,
        List.zip_swap, hturn]
      exact (List.reverse_zipWith (by simp)).symm

theorem TwoWay.tourCost_reverse (ht : t.TwoWay) (tour : List Int) :
    t.tourCost tour.reverse = t.tourCost tour := by
  rw [← tourCost_rotate tour (tour.length - 1), tourCost_eq_costOf, tourCost_eq_costOf,
    legs_reverse]
  apply costOf_congr
  have hswap : ∀ legs : List (Int × Int), (legs.map Prod.swap).map (fun p => t.cost [p.1, p.2]) =
      legs.map fun p => t.cost [p.1, p.2] := by
    intro legs
    rw [List.map_map]
    exact List.map_congr_left fun p _ => ht.symm p.2 p.1
  refine ((List.reverse_perm _).map _).trans ?_
  rw [hswap]

/-! ### Tours and the edges that they were read off -/

theorem TwoWay.tourCost_extracted (ht : t.TwoWay) {entries : List ((Nat × Nat) × Extended)}
    {tour : List Nat} (hrange : ∀ e ∈ entries, e.1.1 < t.cityCount ∧ e.1.2 < t.cityCount)
    (hextract : extractTour (TourGraph.keyed entries) t.cityCount = .ok tour) (hsome : tour ≠ []) :
    t.tourCost (tour.map Int.ofNat) =
      t.costOf ((TourGraph.usedPairs entries).map (Prod.map Int.ofNat Int.ofNat)) := by
  have hn : 1 ≤ t.cityCount := le_trans (by norm_num) ht.large
  rw [tourCost_eq_costOf, legs_map]
  exact ht.costOf_eq (TourGraph.legs_of_extracted hn hrange hextract hsome)

/-- The sum of the costs of pairs, each multiplied by its value. -/
def objective {α : Type} [Scalar α] (t : Instance α) (entries : List ((Nat × Nat) × α)) :
    Except Fault α := do
  return Scalar.sum (← entries.mapM fun e => do return (← t.cost [e.1.1, e.1.2]) * e.2)

variable {c : Nat → Nat → Rat}

theorem Priced.costOf_eq (ht : t.Priced c) {pairs : List (Nat × Nat)}
    (hrange : ∀ p ∈ pairs, p.1 < t.cityCount ∧ p.2 < t.cityCount) :
    t.costOf (pairs.map (Prod.map Int.ofNat Int.ofNat)) =
      .ok (.finite (pairs.map fun p => c p.1 p.2).sum) := by
  have hcosts : (pairs.map (Prod.map Int.ofNat Int.ofNat)).mapM (fun p => t.cost [p.1, p.2]) =
      .ok (pairs.map fun p => .finite (c p.1 p.2)) := by
    rw [List.mapM_map]
    exact mapM_eq_ok fun p hp => ht.cost p.1 (hrange p hp).1 p.2 (hrange p hp).2
  rw [costOf, hcosts]
  exact congrArg Except.ok (Extended.sum_finite _ _)

theorem Priced.objective_eq (ht : t.Priced c) {entries : List ((Nat × Nat) × Extended)}
    (hrange : ∀ e ∈ entries, e.1.1 < t.cityCount ∧ e.1.2 < t.cityCount)
    (hfinite : ∀ e ∈ entries, e.2 = .finite e.2.toRat) :
    t.objective entries = .ok (.finite (entries.map fun e => c e.1.1 e.1.2 * e.2.toRat).sum) := by
  have hterms : entries.mapM (fun e => do return (← t.cost [e.1.1, e.1.2]) * e.2) =
      .ok (entries.map fun e => Extended.finite (c e.1.1 e.1.2 * e.2.toRat)) := by
    refine mapM_eq_ok fun e he => ?_
    obtain ⟨h₁, h₂⟩ := hrange e he
    rw [show t.cost [(e.1.1 : Int), (e.1.2 : Int)] = _ from ht.cost e.1.1 h₁ e.1.2 h₂, hfinite e he]
    rfl
  rw [objective, hterms]
  exact congrArg Except.ok (Extended.sum_finite _ _)

/-- Values of 0 and 1 count the used pairs. -/
theorem sum_usedPairs {entries : List ((Nat × Nat) × Extended)}
    (hbinary : ∀ e ∈ entries, e.2 = .finite 0 ∨ e.2 = .finite 1) :
    ((TourGraph.usedPairs entries).map fun p => c p.1 p.2).sum =
      (entries.map fun e => c e.1.1 e.1.2 * e.2.toRat).sum := by
  rw [TourGraph.usedPairs, List.map_map]
  show ((entries.filter _).map fun e => c e.1.1 e.1.2).sum = _
  rw [Extended.sum_filter_map]
  congr 1
  refine List.map_congr_left fun e he => ?_
  rcases hbinary e he with h | h <;> rw [h, Extended.scalar_half] <;> norm_num

/-! ### Reported tours -/

theorem tourSolution_spec {found : Solution Extended} {solution : TourSolution Extended}
    (h : t.tourSolution found = .ok solution) :
    extractTour found.values t.cityCount = .ok solution.tour ∧ solution.found = found := by
  obtain ⟨tour, htour, h⟩ := except_bind_eq_ok.mp h
  dsimp only at h
  split at h
  · obtain rfl := Except.ok.inj h
    exact ⟨htour, rfl⟩
  · obtain ⟨cost, -, h⟩ := except_bind_eq_ok.mp h
    obtain rfl := Except.ok.inj h
    exact ⟨htour, rfl⟩

theorem tourSolution_of_solveBy {method : Linear.Program → Option (List Rat)}
    {config : TourConfig Extended} {solution : TourSolution Extended}
    (h : (t.solveBy method config).1 = .ok solution) :
    t.tourSolution solution.found = .ok solution := by
  unfold solveBy at h
  split at h
  · cases h
  · rename_i solver _
    rcases hsolve : solver.solve (TourRelaxation.stepBound t.cityCount) none none with
      ⟨result, run, _⟩
    simp only [hsolve] at h
    split at h
    · cases h
    · rename_i reported hreported
      obtain rfl : reported = solution := Except.ok.inj h
      obtain ⟨found, -, hfound⟩ := except_bind_eq_ok.mp hreported
      rw [(tourSolution_spec hfound).2]
      exact hfound

theorem TwoWay.tourSolution_binary (ht : t.TwoWay) (hp : t.Priced c)
    {entries : List ((Nat × Nat) × Extended)}
    (hrange : ∀ e ∈ entries, e.1.1 < t.cityCount ∧ e.1.2 < t.cityCount)
    (hbinary : ∀ e ∈ entries, e.2 = .finite 0 ∨ e.2 = .finite 1) {found : Solution Extended}
    (hfound : found.values = TourGraph.keyed entries) :
    ∃ solution, t.tourSolution found = .ok solution ∧
      (solution.tour ≠ [] → t.objective entries = .ok solution.cost) := by
  obtain ⟨tour, hextract⟩ : ∃ tour, extractTour found.values t.cityCount = .ok tour := by
    obtain ⟨_, -, -, hextract, -⟩ := TourGraph.extractTour_keyed
      (le_trans (by norm_num) ht.large) hrange
    exact ⟨_, hfound ▸ hextract⟩
  cases tour with
  | nil =>
      refine ⟨⟨[], Scalar.infinity, found⟩, ?_, fun hsome => absurd rfl hsome⟩
      rw [tourSolution, hextract]
      rfl
  | cons first rest =>
      have hcost : t.tourCost ((first :: rest).map Int.ofNat) =
          .ok (.finite (entries.map fun e => c e.1.1 e.1.2 * e.2.toRat).sum) := by
        rw [ht.tourCost_extracted hrange (hfound ▸ hextract) (List.cons_ne_nil _ _),
          hp.costOf_eq (TourGraph.usedPairs_lt hrange), sum_usedPairs hbinary]
      refine ⟨⟨first :: rest, _, found⟩, ?_, fun _ => hp.objective_eq hrange fun e he => ?_⟩
      · simp only [tourSolution, hextract, bind, Except.bind, List.isEmpty_cons, Bool.false_eq_true,
          if_false]
        rw [hcost]
        rfl
      · rcases hbinary e he with h | h <;> rw [h, Extended.toRat_finite]

/-- The objective of the linear program at a point of 0s and 1s, from the values that it leaves. -/
theorem Priced.objective_program (hp : t.Priced c) {r : TourRelaxation Extended} (hr : r.tours = t)
    {x : Nat × Nat → Rat} (hbinary : ∀ p ∈ t.pairs, x p = 0 ∨ x p = 1) :
    t.objective ((t.pairs.filter fun p => decide (0 < x p)).map fun p => (p, .finite (x p))) =
      .ok (.finite ((r.program c).objective (t.pairs.map x))) := by
  subst hr
  rw [hp.objective_eq, TourRelaxation.objective_eq, List.map_map]
  · congr 2
    show ((r.tours.pairs.filter _).map fun p => c p.1 p.2 * x p).sum = _
    rw [Extended.sum_filter_map]
    congr 1
    refine List.map_congr_left fun p hp => ?_
    rcases hbinary p hp with h | h <;> simp [h]
  · refine List.forall_mem_map.mpr fun p hp => ?_
    obtain ⟨h₁, h₂⟩ := mem_pairs.mp (List.mem_filter.mp hp).1
    exact ⟨h₁.trans h₂, h₂⟩
  · exact List.forall_mem_map.mpr fun p _ => rfl

/-- The tour of a point of 0s and 1s costs what the linear program says. -/
theorem TwoWay.tourSolution_program (ht : t.TwoWay) (hp : t.Priced c) {r : TourRelaxation Extended}
    (hr : r.tours = t) {x : Nat × Nat → Rat} (hbinary : ∀ p ∈ t.pairs, x p = 0 ∨ x p = 1)
    {found : Solution Extended} (hfound : found.values = r.valuesOf (t.pairs.map x)) :
    ∃ solution, t.tourSolution found = .ok solution ∧ (solution.tour ≠ [] →
      solution.cost = .finite ((r.program c).objective (t.pairs.map x))) := by
  have hcoarse : r.Coarse x := TourRelaxation.coarse_of_binary (hr.symm ▸ hbinary)
  have hvalues := hcoarse.valuesOf_eq
  rw [hr, ← TourGraph.keyed_finite] at hvalues
  have hrange : ∀ p ∈ t.pairs.filter fun p => decide (0 < x p),
      p.1 < t.cityCount ∧ p.2 < t.cityCount := by
    intro p hp
    obtain ⟨h₁, h₂⟩ := mem_pairs.mp (List.mem_filter.mp hp).1
    exact ⟨h₁.trans h₂, h₂⟩
  have hones : ∀ p ∈ t.pairs.filter fun p => decide (0 < x p),
      Extended.finite (x p) = .finite 0 ∨ Extended.finite (x p) = .finite 1 := by
    intro p hp
    rcases hbinary p (List.mem_filter.mp hp).1 with h | h <;> simp [h]
  obtain ⟨solution, hsolution, hcost⟩ := ht.tourSolution_binary hp
    (List.forall_mem_map.mpr hrange) (List.forall_mem_map.mpr hones) (hfound.trans hvalues)
  refine ⟨solution, hsolution, fun hsome => ?_⟩
  exact Except.ok.inj ((hcost hsome).symm.trans (hp.objective_program hr hbinary))

/-- The cost of a tour agrees with the objective. A tour that was read off edge values costs as much
as the used edges, in whatever order and direction these are given; and every tour costs the same
from wherever and in whichever direction it is passed through. With finite costs and values of 0 and
1 the reported cost of a tour is the sum of the costs of the edges times their values, which is the
objective of the linear program at the point that the values were taken from. -/
theorem tourCost_is_objective {costs : List (List Extended)} {name : String}
    (hmake : make costs name = .ok t)
    (hsymm : ∀ i < t.cityCount, ∀ j < t.cityCount, t.costBetween i j = t.costBetween j i) :
    (∀ (entries : List ((Nat × Nat) × Extended)) (tour : List Nat),
      (∀ e ∈ entries, e.1.1 < t.cityCount ∧ e.1.2 < t.cityCount) →
      extractTour (TourGraph.keyed entries) t.cityCount = .ok tour → tour ≠ [] →
      ∃ total, t.tourCost (tour.map Int.ofNat) = .ok total ∧
        t.costOf ((TourGraph.usedPairs entries).map (Prod.map Int.ofNat Int.ofNat)) = .ok total) ∧
    (∀ (tour : List Int) (k : Nat), t.tourCost (tour.rotate k) = t.tourCost tour ∧
      t.tourCost tour.reverse = t.tourCost tour) ∧
    (∀ method config solution, (t.solveBy method config).1 = .ok solution →
      t.tourSolution solution.found = .ok solution) ∧
    ((∀ row ∈ costs, ∀ x ∈ row, ∃ q : Rat, x = .finite q) →
      (∀ (entries : List ((Nat × Nat) × Extended)) (found : Solution Extended),
        (∀ e ∈ entries, e.1.1 < t.cityCount ∧ e.1.2 < t.cityCount) →
        (∀ e ∈ entries, e.2 = .finite 0 ∨ e.2 = .finite 1) →
        found.values = TourGraph.keyed entries →
        ∃ solution, t.tourSolution found = .ok solution ∧
          (solution.tour ≠ [] → t.objective entries = .ok solution.cost)) ∧
      ∀ (r : TourRelaxation Extended) (x : Nat × Nat → Rat) (program : Linear.Program)
        (found : Solution Extended), r.tours = t → (∀ p ∈ t.pairs, x p = 0 ∨ x p = 1) →
        r.program? r.currentBounds = some program → found.values = r.valuesOf (t.pairs.map x) →
        ∃ solution, t.tourSolution found = .ok solution ∧ (solution.tour ≠ [] →
          solution.cost = .finite (program.objective (t.pairs.map x)))) := by
  have ht := twoWay_of_make hmake hsymm
  refine ⟨fun entries tour hrange hextract hsome => ?_,
    fun tour k => ⟨tourCost_rotate tour k, ht.tourCost_reverse tour⟩,
    fun method config solution => tourSolution_of_solveBy,
    fun hfinite => ⟨fun entries found hrange hbinary hfound => ?_,
      fun r x program found hr hbinary hprogram hfound => ?_⟩⟩
  · obtain ⟨total, htotal⟩ := ht.exists_costOf (TourGraph.usedPairs_lt hrange)
    exact ⟨total, (ht.tourCost_extracted hrange hextract hsome).trans htotal, htotal⟩
  · exact ht.tourSolution_binary (priced_exactCost hmake hfinite hsymm) hrange hbinary hfound
  · have hp := priced_exactCost hmake hfinite hsymm
    obtain rfl : r.program t.exactCost = program := by
      subst hr
      exact Option.some.inj ((TourRelaxation.program?_eq hp).symm.trans hprogram)
    exact ht.tourSolution_program hp hr hbinary hfound

def fourTown : Instance Extended :=
  ⟨[[.finite 0, .finite 2, .finite 3, .finite 4], [.finite 2, .finite 0, .finite 5, .finite 6],
    [.finite 3, .finite 5, .finite 0, .finite 7], [.finite 4, .finite 6, .finite 7, .finite 0]],
    "four"⟩

/-- A tour of the four cities, two of its edges against its direction, and an edge that it does not
use. -/
def wholeCities : List ((Nat × Nat) × Extended) :=
  [((2, 0), .finite 1), ((0, 1), .finite 1), ((1, 2), .finite 0), ((3, 1), .finite 1),
    ((2, 3), .finite 1)]

theorem tourCost_is_objective_fourTown :
    (∃ total, fourTown.tourCost [0, 2, 3, 1] = .ok total ∧
      fourTown.costOf [(2, 0), (0, 1), (3, 1), (2, 3)] = .ok total) ∧
    fourTown.tourCost [3, 1, 0, 2] = fourTown.tourCost [0, 2, 3, 1] ∧
    fourTown.tourCost [1, 3, 2, 0] = fourTown.tourCost [0, 2, 3, 1] ∧
    ∀ found : Solution Extended, found.values = TourGraph.keyed wholeCities →
      ∃ solution, fourTown.tourSolution found = .ok solution ∧ solution.tour = [0, 2, 3, 1] ∧
        fourTown.objective wholeCities = .ok solution.cost := by
  have hsymm : ∀ i < fourTown.cityCount, ∀ j < fourTown.cityCount,
      fourTown.costBetween i j = fourTown.costBetween j i := by
    intro i hi j hj
    have hi' : i < 4 := hi
    have hj' : j < 4 := hj
    interval_cases i <;> interval_cases j <;> rfl
  have hfinite : ∀ row ∈ fourTown.costs, ∀ x ∈ row, ∃ q : Rat, x = .finite q := by
    simp [fourTown]
  have hextract : extractTour (TourGraph.keyed wholeCities) 4 = .ok [0, 2, 3, 1] := by
    decide +kernel
  obtain ⟨hread, hturned, -, hreported⟩ :=
    tourCost_is_objective (show make fourTown.costs "four" = .ok fourTown from rfl) hsymm
  refine ⟨hread wholeCities [0, 2, 3, 1] (by decide) hextract (List.cons_ne_nil _ _),
    (hturned [0, 2, 3, 1] 2).1, (hturned [0, 2, 3, 1] 0).2, fun found hfound => ?_⟩
  obtain ⟨solution, hsolution, hcost⟩ := (hreported hfinite).1 wholeCities found (by decide)
    (by decide +kernel) hfound
  have htour : solution.tour = [0, 2, 3, 1] := by
    have hsame := (tourSolution_spec hsolution).1
    rw [hfound] at hsame
    exact Except.ok.inj (hsame.symm.trans hextract)
  exact ⟨solution, hsolution, htour, hcost (htour ▸ List.cons_ne_nil _ _)⟩

end Instance

end TourSearch
