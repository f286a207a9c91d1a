import TourSearch.Proofs.Action
import TourSearch.Proofs.Extended
import TourSearch.Tour.Instance
import Mathlib

/-!
Closed tours and the pairs of cities that they use. A tour is given by the city at every place, with
the first city again at the place after the last. It uses every pair at most once, has two legs at
every city, and crosses every proper set of cities at least twice. Sums over the pairs that it uses
are sums over its legs (`sum_incidence`).
-/

namespace TourSearch

open Numeric

namespace Instance

variable {α : Type} {t : Instance α}

/-! ### Pairs of cities -/

theorem mem_pairs {p : Nat × Nat} : p ∈ t.pairs ↔ p.1 < p.2 ∧ p.2 < t.cityCount := by
  obtain ⟨i, j⟩ := p
  simp only [pairs, List.mem_flatMap, List.mem_range, List.mem_map, List.mem_filter,
    decide_eq_true_eq, Prod.mk.injEq]
  constructor
  · rintro ⟨a, -, b, ⟨hb, hab⟩, rfl, rfl⟩
    exact ⟨hab, hb⟩
  · rintro ⟨hij, hj⟩
    exact ⟨i, hij.trans hj, j, ⟨hj, hij⟩, rfl, rfl⟩

theorem nodup_pairs (t : Instance α) : t.pairs.Nodup := by
  refine List.nodup_flatMap.mpr ⟨fun i _ => ?_, ?_⟩
  · exact (List.nodup_range.filter _).map fun a b h => (Prod.mk.inj h).2
  · refine List.nodup_range.imp fun {i j} hij => ?_
    intro p hi hj
    obtain ⟨a, -, rfl⟩ := List.mem_map.mp hi
    obtain ⟨b, -, heq⟩ := List.mem_map.mp hj
    exact hij (Prod.mk.inj heq).1.symm

theorem sum_pairs (t : Instance α) (f : Nat × Nat → Rat) :
    (t.pairs.map f).sum = ∑ i ∈ Finset.range t.cityCount, ∑ j ∈ Finset.range t.cityCount,
      if i < j then f (i, j) else 0 := by
  have hrow : ∀ i, ((((List.range t.cityCount).filter fun j => decide (i < j)).map
      fun j => (i, j)).map f).sum =
      ∑ j ∈ Finset.range t.cityCount, if i < j then f (i, j) else 0 := by
    intro i
    rw [List.map_map, Extended.sum_filter_map]
    simp only [decide_eq_true_eq]
    rfl
  have hrows : ∀ l : List Nat, ((l.flatMap fun i =>
      ((List.range t.cityCount).filter fun j => decide (i < j)).map fun j => (i, j)).map f).sum =
      (l.map fun i => ∑ j ∈ Finset.range t.cityCount, if i < j then f (i, j) else 0).sum := by
    intro l
    induction l with
    | nil => rfl
    | cons i l ih =>
        rw [List.flatMap_cons, List.map_append, List.sum_append, hrow, ih, List.map_cons,
          List.sum_cons]
  exact hrows (List.range t.cityCount)

end Instance

/-! ### Closed tours -/

/-- The cities at the places of a closed tour, place `n` being the first one again. -/
structure Closed (n : Nat) (v : Nat → Nat) : Prop where
  lt : ∀ i < n, v i < n
  inj : ∀ i < n, ∀ j < n, v i = v j → i = j
  closed : v n = v 0

namespace Closed

variable {n : Nat} {v : Nat → Nat}

theorem next_lt (hv : Closed n v) {i : Nat} (hi : i < n) : v (i + 1) < n := by
  rcases Nat.lt_or_ge (i + 1) n with hlt | hge
  · exact hv.lt _ hlt
  · rw [show i + 1 = n by omega, hv.closed]
    exact hv.lt 0 (by omega)

/-- The place of the city after a place. -/
theorem next_eq (hv : Closed n v) {i j : Nat} (hi : i < n) (hj : j < n) (h : v (i + 1) = v j) :
    j = i + 1 ∨ (j = 0 ∧ i + 1 = n) := by
  rcases Nat.lt_or_ge (i + 1) n with hlt | hge
  · exact Or.inl (hv.inj _ hlt j hj h).symm
  · have hend : i + 1 = n := by omega
    rw [hend, hv.closed] at h
    exact Or.inr ⟨(hv.inj 0 (by omega) j hj h).symm, hend⟩

theorem ne_next (hv : Closed n v) (hn : 2 ≤ n) {i : Nat} (hi : i < n) : v i ≠ v (i + 1) := by
  intro h
  rcases hv.next_eq hi hi h.symm with h | h <;> omega

theorem image_eq (hv : Closed n v) : (Finset.range n).image v = Finset.range n := by
  refine Finset.eq_of_subset_of_card_le (fun k hk => ?_) ?_
  · obtain ⟨i, hi, rfl⟩ := Finset.mem_image.mp hk
    exact Finset.mem_range.mpr (hv.lt i (Finset.mem_range.mp hi))
  · rw [Finset.card_image_of_injOn]
    intro i hi j hj h
    exact hv.inj i (Finset.mem_range.mp hi) j (Finset.mem_range.mp hj) h

theorem exists_place (hv : Closed n v) {k : Nat} (hk : k < n) : ∃ i < n, v i = k := by
  rw [← Finset.mem_range, ← hv.image_eq] at hk
  obtain ⟨i, hi, h⟩ := Finset.mem_image.mp hk
  exact ⟨i, Finset.mem_range.mp hi, h⟩

theorem sum_cities (hv : Closed n v) (f : Nat → Rat) :
    ∑ i ∈ Finset.range n, f (v i) = ∑ k ∈ Finset.range n, f k := by
  have hsum : ∑ k ∈ (Finset.range n).image v, f k = ∑ i ∈ Finset.range n, f (v i) := by
    refine Finset.sum_image fun i hi j hj h => ?_
    exact hv.inj i (Finset.mem_range.mp hi) j (Finset.mem_range.mp hj) h
  rw [← hsum, hv.image_eq]

theorem sum_next (hv : Closed n v) (f : Nat → Rat) :
    ∑ i ∈ Finset.range n, f (v (i + 1)) = ∑ k ∈ Finset.range n, f k := by
  have hshift := Finset.sum_range_succ' (fun i => f (v i)) n
  rw [Finset.sum_range_succ, hv.closed] at hshift
  have hcities := hv.sum_cities f
  linarith

/-! ### Incidence -/

def Joins (a b : Nat) (p : Nat × Nat) : Prop := p = (a, b) ∨ p = (b, a)

instance (a b : Nat) (p : Nat × Nat) : Decidable (Joins a b p) :=
  inferInstanceAs (Decidable (_ ∨ _))

def incidence (n : Nat) (v : Nat → Nat) (p : Nat × Nat) : Rat :=
  ∑ i ∈ Finset.range n, if Joins (v i) (v (i + 1)) p then 1 else 0

/-- No two legs join the same pair. -/
theorem leg_unique (hv : Closed n v) (hn : 3 ≤ n) {i j : Nat} (hi : i < n) (hj : j < n)
    {p : Nat × Nat} (hpi : Joins (v i) (v (i + 1)) p) (hpj : Joins (v j) (v (j + 1)) p) :
    i = j := by
  rcases hpi with hpi | hpi <;> rcases hpj with hpj | hpj <;>
    obtain ⟨h₁, h₂⟩ := Prod.mk.inj (hpi.symm.trans hpj)
  · exact hv.inj i hi j hj h₁
  · -- Opposite legs would make two steps lead around the whole tour.
    rcases hv.next_eq hj hi h₁.symm with h | h <;> rcases hv.next_eq hi hj h₂ with h' | h' <;> omega
  · rcases hv.next_eq hi hj h₁ with h | h <;> rcases hv.next_eq hj hi h₂.symm with h' | h' <;> omega
  · exact hv.inj i hi j hj h₂

theorem incidence_of_leg (hv : Closed n v) (hn : 3 ≤ n) {i : Nat} (hi : i < n) {p : Nat × Nat}
    (hp : Joins (v i) (v (i + 1)) p) : incidence n v p = 1 := by
  rw [incidence, Finset.sum_eq_single i]
  · exact if_pos hp
  · intro j hj hji
    exact if_neg fun hpj => hji (hv.leg_unique hn (Finset.mem_range.mp hj) hi hpj hp)
  · intro hnot
    exact absurd (Finset.mem_range.mpr hi) hnot

theorem incidence_of_not_leg {p : Nat × Nat} (hp : ∀ i < n, ¬Joins (v i) (v (i + 1)) p) :
    incidence n v p = 0 :=
  Finset.sum_eq_zero fun i hi => if_neg (hp i (Finset.mem_range.mp hi))

theorem incidence_cases (hv : Closed n v) (hn : 3 ≤ n) (p : Nat × Nat) :
    incidence n v p = 0 ∨ incidence n v p = 1 := by
  by_cases hp : ∃ i < n, Joins (v i) (v (i + 1)) p
  · obtain ⟨i, hi, hp⟩ := hp
    exact Or.inr (hv.incidence_of_leg hn hi hp)
  · push Not at hp
    exact Or.inl (incidence_of_not_leg hp)

theorem sum_joins {a b : Nat} (ha : a < n) (hb : b < n) (hab : a ≠ b) {f : Nat → Nat → Rat}
    (hf : ∀ i j, f i j = f j i) :
    (∑ i ∈ Finset.range n, ∑ j ∈ Finset.range n,
      if i < j then f i j * (if Joins a b (i, j) then 1 else 0) else 0) = f a b := by
  obtain ⟨x, y, hxy, hx, hy, hxyab⟩ : ∃ x y, x < y ∧ x < n ∧ y < n ∧
      ((x = a ∧ y = b) ∨ (x = b ∧ y = a)) := by
    rcases Nat.lt_or_gt_of_ne hab with h | h
    · exact ⟨a, b, h, ha, hb, Or.inl ⟨rfl, rfl⟩⟩
    · exact ⟨b, a, h, hb, ha, Or.inr ⟨rfl, rfl⟩⟩
  have hjoins : ∀ i j, i < j → (Joins a b (i, j) ↔ i = x ∧ j = y) := by
    intro i j hij
    simp only [Joins, Prod.mk.injEq]
    omega
  have hvalue : f x y = f a b := by
    rcases hxyab with ⟨rfl, rfl⟩ | ⟨rfl, rfl⟩
    · rfl
    · exact hf _ _
  rw [Finset.sum_eq_single x, Finset.sum_eq_single y, if_pos hxy,
    if_pos ((hjoins x y hxy).mpr ⟨rfl, rfl⟩), mul_one, hvalue]
  · intro j _ hj
    split
    · rename_i hlt
      rw [if_neg fun h => hj ((hjoins x j hlt).mp h).2, mul_zero]
    · rfl
  · intro hnot
    exact absurd (Finset.mem_range.mpr hy) hnot
  · intro i _ hi
    refine Finset.sum_eq_zero fun j _ => ?_
    split
    · rename_i hlt
      rw [if_neg fun h => hi ((hjoins i j hlt).mp h).1, mul_zero]
    · rfl
  · intro hnot
    exact absurd (Finset.mem_range.mpr hx) hnot

/-- A sum over the pairs that a tour uses is a sum over its legs. -/
theorem sum_incidence {α : Type} {t : Instance α} (hv : Closed t.cityCount v)
    (hn : 3 ≤ t.cityCount) {f : Nat → Nat → Rat} (hf : ∀ i j, f i j = f j i) :
    (t.pairs.map fun p => f p.1 p.2 * incidence t.cityCount v p).sum =
      ∑ i ∈ Finset.range t.cityCount, f (v i) (v (i + 1)) := by
  have hleg : ∀ i ∈ Finset.range t.cityCount, f (v i) (v (i + 1)) =
      ∑ a ∈ Finset.range t.cityCount, ∑ b ∈ Finset.range t.cityCount,
        if a < b then f a b * (if Joins (v i) (v (i + 1)) (a, b) then 1 else 0) else 0 := by
    intro i hi
    have hlt := Finset.mem_range.mp hi
    exact (sum_joins (hv.lt i hlt) (hv.next_lt hlt) (hv.ne_next (by omega) hlt) hf).symm
  have hpair : ∀ a b, (if a < b then f a b * incidence t.cityCount v (a, b) else 0) =
      ∑ i ∈ Finset.range t.cityCount,
        if a < b then f a b * (if Joins (v i) (v (i + 1)) (a, b) then 1 else 0) else 0 := by
    intro a b
    split
    · rw [incidence, Finset.mul_sum]
    · simp
  rw [Instance.sum_pairs, Finset.sum_congr rfl hleg]
  simp only [hpair]
  calc
    _ = ∑ a ∈ Finset.range t.cityCount, ∑ i ∈ Finset.range t.cityCount,
          ∑ b ∈ Finset.range t.cityCount,
            if a < b then f a b * (if Joins (v i) (v (i + 1)) (a, b) then 1 else 0) else 0 :=
        Finset.sum_congr rfl fun a _ => Finset.sum_comm
    _ = _ := Finset.sum_comm

theorem sum_degree (hv : Closed n v) (hn : 3 ≤ n) {k : Nat} (hk : k < n) :
    (∑ i ∈ Finset.range n, if v i = k ∨ v (i + 1) = k then (1 : Rat) else 0) = 2 := by
  have hsplit : ∀ i ∈ Finset.range n, (if v i = k ∨ v (i + 1) = k then (1 : Rat) else 0) =
      (if v i = k then 1 else 0) + (if v (i + 1) = k then 1 else 0) := by
    intro i hi
    have hne := hv.ne_next (by omega) (Finset.mem_range.mp hi)
    by_cases h₁ : v i = k
    · have h₂ : v (i + 1) ≠ k := fun h₂ => hne (h₁.trans h₂.symm)
      simp [h₁, h₂]
    · simp [h₁]
  rw [Finset.sum_congr rfl hsplit, Finset.sum_add_distrib,
    hv.sum_cities fun c => if c = k then 1 else 0, hv.sum_next fun c => if c = k then 1 else 0]
  simp [hk]
  norm_num

/-- A tour that enters a set and does not stay in it leaves it at some place. -/
theorem exists_leave (hv : Closed n v) (S : Nat → Bool) {a b : Nat} (ha : a < n) (hb : b < n)
    (hSa : S a = true) (hSb : S b = false) :
    ∃ i < n, S (v i) = true ∧ S (v (i + 1)) = false := by
  by_contra hnone
  push Not at hnone
  have hstay : ∀ i j, i ≤ j → j ≤ n → S (v i) = true → S (v j) = true := by
    intro i j hij hj hi
    induction j, hij using Nat.le_induction with
    | base => exact hi
    | succ j _ ih => simpa using hnone j (by omega) (ih (by omega))
  obtain ⟨i, hi, rfl⟩ := hv.exists_place ha
  obtain ⟨j, hj, rfl⟩ := hv.exists_place hb
  have hend := hstay i n (by omega) le_rfl hSa
  rw [hv.closed] at hend
  rw [hstay 0 j (by omega) (by omega) hend] at hSb
  cases hSb

/-- A tour crosses every proper set of cities at least twice. -/
theorem two_le_crossings (hv : Closed n v) (S : Nat → Bool) {a b : Nat} (ha : a < n) (hb : b < n)
    (hSa : S a = true) (hSb : S b = false) :
    (2 : Rat) ≤ ∑ i ∈ Finset.range n, if S (v i) != S (v (i + 1)) then 1 else 0 := by
  -- Every way out of the set is matched by one way into it.
  have hsplit : ∀ i, (if S (v i) != S (v (i + 1)) then (1 : Rat) else 0) =
      2 * (if S (v i) = true ∧ S (v (i + 1)) = false then 1 else 0) +
        ((if S (v (i + 1)) then 1 else 0) - (if S (v i) then 1 else 0)) := by
    intro i
    cases S (v i) <;> cases S (v (i + 1)) <;> norm_num
  have hbalance : ∑ i ∈ Finset.range n,
      ((if S (v (i + 1)) then (1 : Rat) else 0) - (if S (v i) then 1 else 0)) = 0 := by
    rw [Finset.sum_sub_distrib, hv.sum_cities fun c => if S c then 1 else 0,
      hv.sum_next fun c => if S c then 1 else 0, sub_self]
  simp only [hsplit]
  rw [Finset.sum_add_distrib, hbalance, add_zero, ← Finset.mul_sum]
  obtain ⟨i, hi, hleave⟩ := hv.exists_leave S ha hb hSa hSb
  have hone : (1 : Rat) ≤ ∑ i ∈ Finset.range n,
      if S (v i) = true ∧ S (v (i + 1)) = false then 1 else 0 := by
    refine le_trans ?_ (Finset.single_le_sum (fun j _ => ?_) (Finset.mem_range.mpr hi))
    · rw [if_pos hleave]
    · split <;> norm_num
  linarith

end Closed

/-! ### Tours as lists -/

def around (tour : List Nat) (i : Nat) : Nat := tour.getD (i % tour.length) 0

theorem around_of_lt {tour : List Nat} {i : Nat} (hi : i < tour.length) :
    tour[i]? = some (around tour i) := by
  rw [around, Nat.mod_eq_of_lt hi, List.getD_eq_getElem?_getD, List.getElem?_eq_getElem hi]
  rfl

theorem around_succ {a : Nat} {l : List Nat} {i : Nat} (hi : i < l.length + 1) :
    (l ++ [a])[i]? = some (around (a :: l) (i + 1)) := by
  rcases Nat.lt_or_ge i l.length with hlt | hge
  · rw [List.getElem?_append_left hlt, ← around_of_lt (by simpa using hlt),
      List.getElem?_cons_succ]
  · have hend : i = l.length := by omega
    have haround : around (a :: l) (l.length + 1) = a := by simp [around]
    rw [hend, haround]
    simp

theorem closed_around {n : Nat} {tour : List Nat} (h : tour.Perm (List.range n)) :
    Closed n (around tour) := by
  have hlength : tour.length = n := by rw [h.length_eq, List.length_range]
  refine ⟨fun i hi => ?_, fun i hi j hj hij => ?_, ?_⟩
  · have hi' : i < tour.length := by omega
    have hmem := List.mem_of_getElem? (around_of_lt hi')
    exact List.mem_range.mp (h.mem_iff.mp hmem)
  · have hnodup : tour.Nodup := h.nodup_iff.mpr List.nodup_range
    have hi' : i < tour.length := by omega
    rw [← Option.some_inj, ← around_of_lt hi', ← around_of_lt (by omega)] at hij
    exact (List.getElem?_inj hi' hnodup).mp hij
  · rw [around, around, hlength, Nat.mod_self, Nat.zero_mod]

theorem rotateLeft_cons {β : Type} (a : β) (l : List β) : (a :: l).rotateLeft 1 = l ++ [a] := by
  cases l with
  | nil => rfl
  | cons b l =>
      have hmod : 1 % (l.length + 1 + 1) = 1 := Nat.mod_eq_of_lt (by omega)
      simp [List.rotateLeft, hmod]

/-- The legs of a closed tour: from every city to the next one, and from the last to the first. -/
def legs (tour : List Nat) : List (Nat × Nat) := tour.zip (tour.rotateLeft 1)

theorem legs_eq (tour : List Nat) :
    legs tour = (List.range tour.length).map fun i => (around tour i, around tour (i + 1)) := by
  cases tour with
  | nil => rfl
  | cons a l =>
      apply List.ext_getElem?
      intro i
      rw [legs, rotateLeft_cons]
      rcases Nat.lt_or_ge i (a :: l).length with hlt | hge
      · rw [List.getElem?_map, List.getElem?_range hlt, Option.map_some, List.getElem?_zip_eq_some]
        exact ⟨around_of_lt hlt, around_succ (by simpa using hlt)⟩
      · rw [List.getElem?_eq_none, List.getElem?_eq_none]
        · simpa using hge
        · simpa using hge

theorem rotateLeft_perm (tour : List Nat) : (tour.rotateLeft 1).Perm tour := by
  cases tour with
  | nil => exact List.Perm.refl _
  | cons a l =>
      rw [rotateLeft_cons]
      exact List.perm_append_singleton a l

namespace Instance

/-- An instance with at least three cities and finite costs, the same in both directions. -/
structure Priced (t : Instance Extended) (c : Nat → Nat → Rat) : Prop where
  large : 3 ≤ t.cityCount
  cost : ∀ i < t.cityCount, ∀ j < t.cityCount, t.costBetween i j = .ok (.finite (c i j))
  symm : ∀ i j, c i j = c j i

theorem mapM_eq_ok {β γ : Type} {f : β → Except Fault γ} {g : β → γ} {l : List β}
    (h : ∀ b ∈ l, f b = .ok (g b)) : l.mapM f = .ok (l.map g) := by
  induction l with
  | nil => rfl
  | cons b l ih =>
      rw [List.mapM_cons, h b List.mem_cons_self,
        ih fun b' hb' => h b' (List.mem_cons_of_mem _ hb')]
      rfl

theorem legs_map (tour : List Nat) :
    legs (tour.map Int.ofNat) = (TourSearch.legs tour).map (Prod.map Int.ofNat Int.ofNat) := by
  have hrotate : (tour.map Int.ofNat).rotateLeft 1 = (tour.rotateLeft 1).map Int.ofNat := by
    cases tour with
    | nil => rfl
    | cons a l => rw [List.map_cons, rotateLeft_cons, rotateLeft_cons, List.map_append,
        List.map_singleton]
  rw [legs, hrotate, List.zip_map, TourSearch.legs]

theorem Priced.tourCost_eq {t : Instance Extended} {c : Nat → Nat → Rat} (ht : t.Priced c)
    {tour : List Nat} (h : tour.Perm (List.range t.cityCount)) :
    t.tourCost (tour.map Int.ofNat) =
      .ok (.finite (∑ i ∈ Finset.range t.cityCount, c (around tour i) (around tour (i + 1)))) := by
  have hv := closed_around h
  have hlegs : (legs (tour.map Int.ofNat)).mapM (fun leg => t.costBetween leg.1 leg.2) =
      .ok ((List.range t.cityCount).map fun i =>
        .finite (c (around tour i) (around tour (i + 1)))) := by
    rw [legs_map, TourSearch.legs_eq, h.length_eq, List.length_range, List.map_map, List.mapM_map]
    refine mapM_eq_ok fun i hi => ?_
    have hlt := List.mem_range.mp hi
    exact ht.cost _ (hv.lt i hlt) _ (hv.next_lt hlt)
  show ((legs (tour.map Int.ofNat)).mapM (fun leg => t.costBetween leg.1 leg.2) >>= _) = _
  rw [hlegs]
  show Except.ok (Scalar.sum _) = _
  rw [Extended.sum_finite]
  rfl

end Instance

end TourSearch
