import TourSearch.Proofs.Tour.Cycle
import Mathlib

/-!
Tours found in values of 0 and 1. If two pairs are used at every city and at least one between every
set of cities and the others, then no used pair leaves the cities of the walk, which are therefore
all cities: the extracted tour uses just the pairs of value 1 (`Binary.extractTour_spec`).
-/

namespace TourSearch

open Numeric

namespace TourGraph

def entriesOf (x : Nat × Nat → Rat) (pairs : List (Nat × Nat)) : List (Edge × Extended) :=
  pairs.map fun p => (Instance.edge p.1 p.2, .finite (x p))

theorem keyed_finite (x : Nat × Nat → Rat) (pairs : List (Nat × Nat)) :
    keyed (pairs.map fun p => (p, Extended.finite (x p))) = ⟨entriesOf x pairs⟩ := by
  simp [keyed, entriesOf]

theorem usedPairs_finite (x : Nat × Nat → Rat) (pairs : List (Nat × Nat)) :
    usedPairs (pairs.map fun p => (p, Extended.finite (x p))) =
      pairs.filter fun p => decide (1 / 2 < x p) := by
  rw [usedPairs, List.filter_map, List.map_map]
  simp only [Function.comp_def, Extended.scalar_half, Extended.finite_lt_finite, List.map_id']

theorem length_ends_of_ne {pairs : List (Nat × Nat)} (hne : ∀ p ∈ pairs, p.1 ≠ p.2) (k : Nat) :
    (ends pairs k).length = pairs.countP fun p => decide (p.1 = k ∨ p.2 = k) := by
  induction pairs with
  | nil => rfl
  | cons p pairs ih =>
      have hp := hne p List.mem_cons_self
      rw [← List.singleton_append, ends_append, List.length_append, List.countP_append,
        ih fun q hq => hne q (List.mem_cons_of_mem p hq)]
      by_cases h₁ : p.1 = k
      · have h₂ : p.2 ≠ k := fun h₂ => hp (h₁.trans h₂.symm)
        simp [ends, h₁, h₂]
      · by_cases h₂ : p.2 = k <;> simp [ends, h₁, h₂]

theorem exists_joins {taken pairs : List (Nat × Nat)} (hle : undirected taken ≤ undirected pairs)
    {a b : Nat} (hmem : (a, b) ∈ taken) : ∃ p ∈ pairs, Closed.Joins a b p :=
  mem_ends.mp (Multiset.mem_of_le (ends_le hle a) (mem_ends.mpr ⟨_, hmem, Or.inl rfl⟩))

end TourGraph

/-! ### Extraction -/

/-- Values of pairs that are 0 or 1, with two used pairs at every city and at least one between
every set of cities and the others. -/
structure Binary {α : Type} (t : Instance α) (x : Nat × Nat → Rat) : Prop where
  cases : ∀ p ∈ t.pairs, x p = 0 ∨ x p = 1
  degree : ∀ k < t.cityCount,
    (t.pairs.map fun p => (if p.1 = k ∨ p.2 = k then 1 else 0) * x p).sum = 2
  crossed : ∀ (S : Nat → Bool) {a b : Nat}, a < t.cityCount → b < t.cityCount → S a = true →
    S b = false → 0 < (t.pairs.map fun p => (if S p.1 != S p.2 then 1 else 0) * x p).sum

namespace Binary

variable {α : Type} {t : Instance α} {x : Nat × Nat → Rat}

def used (t : Instance α) (x : Nat × Nat → Rat) : List (Nat × Nat) :=
  t.pairs.filter fun p => decide (1 / 2 < x p)

theorem mem_used (hx : Binary t x) {p : Nat × Nat} : p ∈ used t x ↔ p ∈ t.pairs ∧ x p = 1 := by
  rw [used, List.mem_filter, decide_eq_true_iff]
  refine and_congr_right fun hp => ⟨fun hlt => ?_, fun h => by rw [h]; norm_num⟩
  rcases hx.cases p hp with h | h
  · rw [h] at hlt
    norm_num at hlt
  · exact h

theorem sum_eq_countP (hx : Binary t x) (test : Nat × Nat → Bool) :
    (t.pairs.map fun p => (if test p then 1 else 0) * x p).sum = (used t x).countP test := by
  have hall : ∀ l : List (Nat × Nat), (∀ p ∈ l, x p = 0 ∨ x p = 1) →
      (l.map fun p => (if test p then 1 else 0) * x p).sum =
        ((l.filter fun p => decide (1 / 2 < x p)).countP test : Nat) := by
    intro l
    induction l with
    | nil => simp
    | cons p l ih =>
        intro hl
        have hrest := ih fun q hq => hl q (List.mem_cons_of_mem _ hq)
        rw [List.map_cons, List.sum_cons, hrest]
        rcases hl p List.mem_cons_self with h | h
        · rw [List.filter_cons_of_neg (by rw [h]; norm_num), h]
          ring
        · rw [List.filter_cons_of_pos (by rw [h]; norm_num), List.countP_cons, h]
          split <;> push_cast <;> ring
  exact hall t.pairs hx.cases

theorem sorted_used (p : Nat × Nat) (hp : p ∈ used t x) : p.1 < p.2 ∧ p.2 < t.cityCount :=
  Instance.mem_pairs.mp (List.mem_filter.mp hp).1

theorem length_ends (hx : Binary t x) {k : Nat} (hk : k < t.cityCount) :
    (TourGraph.ends (used t x) k).length = 2 := by
  have hdegree := hx.degree k hk
  have hcount := hx.sum_eq_countP fun p => decide (p.1 = k ∨ p.2 = k)
  simp only [decide_eq_true_eq] at hcount
  rw [hcount] at hdegree
  rw [TourGraph.length_ends_of_ne fun p hp => (sorted_used p hp).1.ne]
  exact_mod_cast hdegree

/-- A tour whose legs are used uses all used pairs. -/
theorem eq_incidence (hx : Binary t x) (hn : 3 ≤ t.cityCount) {v : Nat → Nat}
    (hv : Closed t.cityCount v)
    (hlegs : ∀ i < t.cityCount, ∃ p ∈ used t x, Closed.Joins (v i) (v (i + 1)) p) :
    ∀ p ∈ t.pairs, x p = Closed.incidence t.cityCount v p := by
  have hle : ∀ p ∈ t.pairs, Closed.incidence t.cityCount v p ≤ x p := by
    intro p hp
    by_cases hleg : ∃ i < t.cityCount, Closed.Joins (v i) (v (i + 1)) p
    · obtain ⟨i, hi, hjoins⟩ := hleg
      obtain ⟨q, hq, hjoins'⟩ := hlegs i hi
      obtain ⟨hpairs, hone⟩ := hx.mem_used.mp hq
      have hsame : p = q := by
        have hp' := (Instance.mem_pairs.mp hp).1
        have hq' := (sorted_used q hq).1
        rcases hjoins with rfl | rfl <;> rcases hjoins' with rfl | rfl <;>
          simp only [Prod.mk.injEq] at hp' hq' ⊢ <;> omega
      rw [hv.incidence_of_leg hn hi hjoins, hsame, hone]
    · push Not at hleg
      rw [Closed.incidence_of_not_leg hleg]
      rcases hx.cases p hp with h | h <;> rw [h]
      norm_num
  -- Both have two pairs at every city, so that none is left over.
  intro p hp
  obtain ⟨hlt, hsize⟩ := Instance.mem_pairs.mp hp
  have hdegree : (t.pairs.map fun q => (if q.1 = p.1 ∨ q.2 = p.1 then 1 else 0) *
      (x q - Closed.incidence t.cityCount v q)).sum = 0 := by
    have hinc := hv.sum_incidence hn
      (f := fun a b => if a = p.1 ∨ b = p.1 then (1 : Rat) else 0) (by simp [or_comm])
    rw [hv.sum_degree hn (hlt.trans hsize)] at hinc
    have hsum : (t.pairs.map fun q => (if q.1 = p.1 ∨ q.2 = p.1 then 1 else 0) *
        (x q - Closed.incidence t.cityCount v q)).sum + 2 = 2 := by
      rw [← hx.degree p.1 (hlt.trans hsize)]
      nth_rewrite 1 [hx.degree p.1 (hlt.trans hsize), ← hinc]
      rw [← List.sum_map_add]
      congr 1
      refine List.map_congr_left fun q _ => ?_
      ring
    linarith
  have hzero := List.all_zero_of_le_zero_le_of_sum_eq_zero (fun y hy => ?_) hdegree
    (List.mem_map_of_mem hp)
  · rw [if_pos (Or.inl rfl), one_mul] at hzero
    linarith
  · obtain ⟨q, hq, rfl⟩ := List.mem_map.mp hy
    have := hle q hq
    split
    · linarith
    · simp

/-- A set that holds city 0 and that no used pair leaves holds all cities. -/
theorem mem_of_closed (hx : Binary t x) {S : List Nat} (hzero : 0 ∈ S)
    (hS : ∀ k ∈ S, ∀ l ∈ TourGraph.ends (used t x) k, l ∈ S) {k : Nat} (hk : k < t.cityCount) :
    k ∈ S := by
  by_contra hkS
  have hpos := hx.crossed (fun c => decide (c ∈ S)) (Nat.zero_lt_of_lt hk) hk (by simpa using hzero)
    (by simpa using hkS)
  rw [hx.sum_eq_countP] at hpos
  obtain ⟨p, hp, hsplit⟩ := List.countP_pos_iff.mp (by exact_mod_cast hpos)
  have hiff : p.1 ∈ S ↔ p.2 ∈ S :=
    ⟨fun h => hS p.1 h p.2 (TourGraph.mem_ends.mpr ⟨p, hp, Or.inl rfl⟩),
      fun h => hS p.2 h p.1 (TourGraph.mem_ends.mpr ⟨p, hp, Or.inr rfl⟩)⟩
  simp [hiff] at hsplit

/-- The extracted tour of binary values: it starts at city 0, goes through all cities, and uses the
pairs of value 1. Values of 0 may be left out. -/
theorem extractTour_spec (hx : Binary t x) (hn : 3 ≤ t.cityCount) {listed : List (Nat × Nat)}
    (hlisted : listed = t.pairs.filter fun p => decide (0 < x p)) :
    ∃ tour, extractTour ⟨TourGraph.entriesOf x listed⟩ t.cityCount = .ok tour ∧
      tour.Perm (List.range t.cityCount) ∧ tour.head? = some 0 ∧
      ∀ p ∈ t.pairs, x p = Closed.incidence t.cityCount (around tour) p := by
  have hused : TourGraph.usedPairs (listed.map fun p => (p, Extended.finite (x p))) = used t x := by
    rw [TourGraph.usedPairs_finite, hlisted, List.filter_filter]
    refine List.filter_congr fun p _ => ?_
    rw [Bool.eq_iff_iff, Bool.and_eq_true, decide_eq_true_iff, decide_eq_true_iff]
    exact ⟨fun h => h.1, fun h => ⟨h, by linarith⟩⟩
  have hrange : ∀ e ∈ listed.map fun p => (p, Extended.finite (x p)),
      e.1.1 < t.cityCount ∧ e.1.2 < t.cityCount := by
    refine List.forall_mem_map.mpr fun p hp => ?_
    rw [hlisted] at hp
    obtain ⟨h₁, h₂⟩ := Instance.mem_pairs.mp (List.mem_filter.mp hp).1
    exact ⟨h₁.trans h₂, h₂⟩
  obtain ⟨g, -, hall, hextract, hget⟩ := TourGraph.extractTour_keyed (by omega) hrange
  rw [hused] at hall hget
  have hg : TourGraph.TwoEnds g t.cityCount (used t x) :=
    ⟨fun p hp => ⟨(sorted_used p hp).1.trans (sorted_used p hp).2, (sorted_used p hp).2⟩, hget,
      fun k hk => hx.length_ends hk⟩
  obtain ⟨hnodup, hlt, hle, -⟩ := hg.walk_spec (by omega)
  have hperm : (0 :: g.walk t.cityCount none 0).Perm (List.range t.cityCount) := by
    refine List.perm_of_nodup_nodup_toFinset_eq hnodup List.nodup_range ?_
    ext k
    rw [List.mem_toFinset, List.mem_toFinset, List.mem_range]
    exact ⟨hlt k, hx.mem_of_closed List.mem_cons_self fun s hs l hl =>
      hg.closed hnodup hlt hle hs hl⟩
  have hlength : (0 :: g.walk t.cityCount none 0).length = t.cityCount := by
    rw [hperm.length_eq, List.length_range]
  rw [TourGraph.keyed_finite, if_pos ⟨hall.mpr hg.two, hlength⟩] at hextract
  refine ⟨_, hextract, hperm, rfl, hx.eq_incidence hn (closed_around hperm) fun i hi => ?_⟩
  exact TourGraph.exists_joins hle (TourGraph.leg_mem (by rwa [hlength]))

end Binary

end TourSearch
