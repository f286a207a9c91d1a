import TourSearch.Proofs.Tour.Closed
import TourSearch.Tour.Extract
import Mathlib

/-!
Tours along used edges, which may be given in either orientation, in both, or be loops. The used
edges are a multiset of unordered pairs, and the legs of a walk along them never exceed it
(`OnWalk.le`). Where every city has two ends of edges, a walk that came to a city for the second
time would give it a third one, so that only city 0 can be met again (`OnWalk.step`). The walk
therefore stops, and it is long enough just when the edges are a single closed cycle
(`extractTour_decides`).
-/

namespace TourSearch

open Numeric

namespace TourGraph

variable {g : TourGraph}

/-! ### Edges without direction -/

def undirected (pairs : List (Nat × Nat)) : Multiset (Sym2 Nat) :=
  (pairs.map fun p => s(p.1, p.2) : List (Sym2 Nat))

def ends (pairs : List (Nat × Nat)) (k : Nat) : List Nat :=
  pairs.flatMap fun p => (if p.1 = k then [p.2] else []) ++ if p.2 = k then [p.1] else []

theorem undirected_append (pairs pairs' : List (Nat × Nat)) :
    undirected (pairs ++ pairs') = undirected pairs + undirected pairs' := by
  simp [undirected]

theorem card_undirected (pairs : List (Nat × Nat)) :
    (undirected pairs).card = pairs.length := by
  simp [undirected]

theorem ends_append (pairs pairs' : List (Nat × Nat)) (k : Nat) :
    ends (pairs ++ pairs') k = ends pairs k ++ ends pairs' k :=
  List.flatMap_append

theorem mem_ends {pairs : List (Nat × Nat)} {k l : Nat} :
    l ∈ ends pairs k ↔ ∃ p ∈ pairs, Closed.Joins k l p := by
  simp only [ends, List.mem_flatMap]
  refine exists_congr fun p => and_congr_right fun _ => ?_
  obtain ⟨a, b⟩ := p
  simp only [Closed.Joins, Prod.mk.injEq, List.mem_append]
  by_cases ha : a = k <;> by_cases hb : b = k <;> simp [ha, hb] <;> omega

theorem length_ends (pairs : List (Nat × Nat)) (k : Nat) :
    (ends pairs k).length = (pairs.map Prod.fst).count k + (pairs.map Prod.snd).count k := by
  induction pairs with
  | nil => rfl
  | cons p pairs ih =>
      rw [ends, List.flatMap_cons, List.length_append, ← ends, ih, List.map_cons, List.map_cons,
        List.count_cons, List.count_cons]
      by_cases ha : p.1 = k <;> by_cases hb : p.2 = k <;> simp [ha, hb] <;> omega

/-- An edge is an end at a city as often as it is there, a loop twice as often. -/
theorem count_ends (pairs : List (Nat × Nat)) (k l : Nat) :
    (ends pairs k).count l = (undirected pairs).count s(k, l) * if k = l then 2 else 1 := by
  induction pairs with
  | nil => simp [ends, undirected]
  | cons p pairs ih =>
      obtain ⟨a, b⟩ := p
      have hhead : (ends [(a, b)] k).count l =
          (undirected [(a, b)]).count s(k, l) * if k = l then 2 else 1 := by
        have hone : (undirected [(a, b)]).count s(k, l) =
            if (k = a ∧ l = b) ∨ (k = b ∧ l = a) then 1 else 0 := by
          simp [undirected, Multiset.count_singleton]
        have htwo : (ends [(a, b)] k).count l =
            (if a = k ∧ b = l then 1 else 0) + if b = k ∧ a = l then 1 else 0 := by
          by_cases ha : a = k <;> by_cases hb : b = k <;> simp [ends, ha, hb, List.count_cons]
        rw [hone, htwo]
        split_ifs <;> omega
      rw [← List.singleton_append, ends_append, undirected_append, List.count_append,
        Multiset.count_add, hhead, ih, Nat.add_mul]

theorem ends_le {pairs pairs' : List (Nat × Nat)} (h : undirected pairs ≤ undirected pairs')
    (k : Nat) : (ends pairs k : Multiset Nat) ≤ ends pairs' k := by
  rw [Multiset.le_iff_count]
  intro l
  rw [Multiset.coe_count, Multiset.coe_count, count_ends, count_ends]
  exact Nat.mul_le_mul_right _ (Multiset.le_iff_count.mp h _)

theorem length_ends_le {pairs pairs' : List (Nat × Nat)} (h : undirected pairs ≤ undirected pairs')
    (k : Nat) : (ends pairs k).length ≤ (ends pairs' k).length :=
  Multiset.card_le_card (ends_le h k)

/-- An edge with more ends than those taken can still be taken. -/
theorem undirected_add_le {taken pairs : List (Nat × Nat)} {k l : Nat}
    (h : undirected taken ≤ undirected pairs)
    (hmore : (ends taken k).count l < (ends pairs k).count l) :
    undirected (taken ++ [(k, l)]) ≤ undirected pairs := by
  rw [count_ends, count_ends] at hmore
  have hleft : (undirected taken).count s(k, l) < (undirected pairs).count s(k, l) :=
    lt_of_mul_lt_mul_right hmore (Nat.zero_le _)
  have hone : ∀ e, (undirected [(k, l)]).count e = if e = s(k, l) then 1 else 0 :=
    fun e => by simp [undirected, Multiset.count_singleton]
  rw [undirected_append, Multiset.le_iff_count]
  intro e
  rw [Multiset.count_add, hone]
  split
  · rename_i he
    rw [he]
    omega
  · exact Multiset.le_iff_count.mp h e

theorem sum_length_ends {n : Nat} {pairs : List (Nat × Nat)}
    (hlt : ∀ p ∈ pairs, p.1 < n ∧ p.2 < n) :
    ∑ k ∈ Finset.range n, (ends pairs k).length = 2 * pairs.length := by
  have hcount : ∀ l : List Nat, (∀ k ∈ l, k < n) →
      ∑ k ∈ Finset.range n, l.count k = l.length := by
    intro l hl
    have hsum := Multiset.sum_count_eq_card (s := Finset.range n) (m := (l : Multiset Nat))
      fun k hk => Finset.mem_range.mpr (hl k hk)
    simpa only [Multiset.coe_count, Multiset.coe_card] using hsum
  have hfirst : ∀ k ∈ pairs.map Prod.fst, k < n :=
    List.forall_mem_map.mpr fun p hp => (hlt p hp).1
  have hsecond : ∀ k ∈ pairs.map Prod.snd, k < n :=
    List.forall_mem_map.mpr fun p hp => (hlt p hp).2
  simp only [length_ends, Finset.sum_add_distrib]
  rw [hcount _ hfirst, hcount _ hsecond, List.length_map, List.length_map, two_mul]

/-! ### Closed cycles -/

/-- The pairs are a single closed cycle through the cities 0 up to their number. -/
def OneCycle (n : Nat) (pairs : List (Nat × Nat)) : Prop :=
  ∃ cycle : List Nat, cycle.Perm (List.range n) ∧ undirected (legs cycle) = undirected pairs

theorem length_legs (tour : List Nat) : (legs tour).length = tour.length := by
  rw [legs, List.length_zip, (rotateLeft_perm tour).length_eq, min_self]

theorem mem_of_mem_legs {tour : List Nat} {p : Nat × Nat} (hp : p ∈ legs tour) :
    p.1 ∈ tour ∧ p.2 ∈ tour := by
  obtain ⟨a, b⟩ := p
  obtain ⟨ha, hb⟩ := List.of_mem_zip hp
  exact ⟨ha, (rotateLeft_perm tour).mem_iff.mp hb⟩

theorem length_ends_legs (tour : List Nat) (k : Nat) :
    (ends (legs tour) k).length = 2 * tour.count k := by
  have hlength := (rotateLeft_perm tour).length_eq
  rw [length_ends, legs, List.map_fst_zip hlength.ge, List.map_snd_zip hlength.le,
    (rotateLeft_perm tour).count_eq, two_mul]

theorem leg_mem {tour : List Nat} {i : Nat} (hi : i < tour.length) :
    (around tour i, around tour (i + 1)) ∈ legs tour := by
  rw [legs_eq]
  exact List.mem_map_of_mem (List.mem_range.mpr hi)

/-- A set of cities that a closed cycle enters and does not leave holds all its cities. -/
theorem mem_of_legs {n : Nat} {cycle : List Nat} (hcycle : cycle.Perm (List.range n))
    {tour : List Nat} (hstay : ∀ p ∈ legs cycle, p.1 ∈ tour → p.2 ∈ tour) {a b : Nat}
    (ha : a < n) (hmem : a ∈ tour) (hb : b < n) : b ∈ tour := by
  by_contra hout
  obtain ⟨i, hi, hin, hleave⟩ := (closed_around hcycle).exists_leave (fun c => decide (c ∈ tour))
    ha hb (by simpa using hmem) (by simpa using hout)
  rw [← hcycle.length_eq.trans List.length_range] at hi
  exact of_decide_eq_false hleave (hstay _ (leg_mem hi) (of_decide_eq_true hin))

/-! ### The walk -/

/-- The runs of the walk for as many steps as it takes: on to the next city until that is city 0. -/
inductive Circles (g : TourGraph) : Option Nat → Nat → List Nat → Prop
  | home {previous : Option Nat} {current a b : Nat} : g[current]? = some [a, b] →
      (if some a = previous then b else a) = 0 → Circles g previous current []
  | on {previous : Option Nat} {current a b next : Nat} {rest : List Nat} :
      g[current]? = some [a, b] → (if some a = previous then b else a) = next → next ≠ 0 →
      Circles g (some current) next rest → Circles g previous current (next :: rest)

/-- A graph has one run from a place. -/
theorem Circles.unique {previous : Option Nat} {current : Nat} {cities cities' : List Nat}
    (h : Circles g previous current cities) (h' : Circles g previous current cities') :
    cities = cities' := by
  induction h generalizing cities' with
  | home hab hzero =>
      cases h' with
      | home => rfl
      | on hab' hnext hne =>
          obtain ⟨rfl, rfl⟩ : _ = _ ∧ _ = _ := by simpa using hab.symm.trans hab'
          exact absurd (hnext.symm.trans hzero) hne
  | on hab hnext hne _ ih =>
      cases h' with
      | home hab' hzero =>
          obtain ⟨rfl, rfl⟩ : _ = _ ∧ _ = _ := by simpa using hab.symm.trans hab'
          exact absurd (hnext.symm.trans hzero) hne
      | on hab' hnext' _ hrest =>
          obtain ⟨rfl, rfl⟩ : _ = _ ∧ _ = _ := by simpa using hab.symm.trans hab'
          obtain rfl := hnext.symm.trans hnext'
          rw [ih hrest]

def homeward (current : Nat) (cities : List Nat) : List (Nat × Nat) :=
  (current :: cities).zip (cities ++ [0])

theorem legs_cons_zero (cities : List Nat) : legs (0 :: cities) = homeward 0 cities := by
  rw [legs, rotateLeft_cons, homeward]

structure TwoEnds (g : TourGraph) (n : Nat) (pairs : List (Nat × Nat)) : Prop where
  lt : ∀ p ∈ pairs, p.1 < n ∧ p.2 < n
  get : ∀ k < n, g[k]? = some (ends pairs k)
  two : ∀ k < n, (ends pairs k).length = 2

/-- A walk under way: the cities seen and the legs taken. No leg is taken more often than it is
there, and only the cities on the way from city 0 to the current one have both their ends taken. -/
structure OnWalk (n : Nat) (pairs : List (Nat × Nat)) (seen : List Nat) (taken : List (Nat × Nat))
    (previous : Option Nat) (current : Nat) : Prop where
  nodup : seen.Nodup
  lt : ∀ s ∈ seen, s < n
  current_mem : current ∈ seen
  le : undirected taken ≤ undirected pairs
  last : ends taken current = previous.toList
  passed : ∀ s ∈ seen, s ≠ 0 → (ends taken s).length = if s = current then 1 else 2
  ahead : ∀ s, s ∉ seen → ends taken s = []

variable {n : Nat} {pairs : List (Nat × Nat)}

theorem TwoEnds.length_eq (hg : TwoEnds g n pairs) : pairs.length = n := by
  have hsum := sum_length_ends hg.lt
  rw [Finset.sum_congr rfl fun k hk => hg.two k (Finset.mem_range.mp hk), Finset.sum_const,
    Finset.card_range, smul_eq_mul] at hsum
  omega

theorem TwoEnds.end_lt (hg : TwoEnds g n pairs) {k l : Nat} (hl : l ∈ ends pairs k) : l < n := by
  obtain ⟨p, hp, rfl | rfl⟩ := mem_ends.mp hl
  · exact (hg.lt _ hp).2
  · exact (hg.lt _ hp).1

theorem OnWalk.length_le {seen : List Nat} {taken : List (Nat × Nat)} {previous : Option Nat}
    {current : Nat} (hw : OnWalk n pairs seen taken previous current) : seen.length ≤ n := by
  have hsub : seen ⊆ List.range n := fun s hs => List.mem_range.mpr (hw.lt s hs)
  simpa using hw.nodup.length_le_of_subset hsub

/-- The edge to the next city has not been taken. -/
theorem OnWalk.next (hg : TwoEnds g n pairs) {seen : List Nat} {taken : List (Nat × Nat)}
    {previous : Option Nat} {current : Nat} (hw : OnWalk n pairs seen taken previous current) :
    ∃ a b next, g[current]? = some [a, b] ∧ (if some a = previous then b else a) = next ∧
      next < n ∧ undirected (taken ++ [(current, next)]) ≤ undirected pairs := by
  have hcurrent := hw.lt current hw.current_mem
  obtain ⟨a, b, hab⟩ := List.length_eq_two.mp (hg.two current hcurrent)
  refine ⟨a, b, _, hab ▸ hg.get current hcurrent, rfl, hg.end_lt (k := current) ?_,
    undirected_add_le hw.le ?_⟩
  · rw [hab]
    split <;> simp
  · rw [hw.last, hab]
    split
    · rename_i hback
      simp [← hback, List.count_cons]
    · rename_i hon
      have hnone : previous.toList.count a = 0 :=
        List.count_eq_zero.mpr fun hmem => hon (Option.mem_toList.mp hmem).symm
      rw [hnone]
      simp

/-- The next city, if it is not city 0, has not been seen: it would have a third end. -/
theorem OnWalk.step (hg : TwoEnds g n pairs) {seen : List Nat} {taken : List (Nat × Nat)}
    {previous : Option Nat} {current next : Nat} (hw : OnWalk n pairs seen taken previous current)
    (hnext : next < n) (hzero : next ≠ 0)
    (hle : undirected (taken ++ [(current, next)]) ≤ undirected pairs) :
    OnWalk n pairs (seen ++ [next]) (taken ++ [(current, next)]) (some current) next := by
  have hends : ∀ k, ends (taken ++ [(current, next)]) k =
      ends taken k ++
        ((if current = k then [next] else []) ++ if next = k then [current] else []) :=
    fun k => by simp [ends]
  have hfresh : next ∉ seen := by
    intro hmem
    have htwo := length_ends_le hle next
    rw [hg.two next hnext, hends, List.length_append, hw.passed next hmem hzero] at htwo
    by_cases hloop : next = current
    · simp [hloop] at htwo
    · simp [hloop] at htwo
  have hne : current ≠ next := fun h => hfresh (h ▸ hw.current_mem)
  refine ⟨?_, ?_, by simp, hle, ?_, fun s hs hs0 => ?_, fun s hs => ?_⟩
  · exact List.nodup_append.mpr ⟨hw.nodup, by simp, fun a ha b hb =>
      fun hab => hfresh (List.mem_singleton.mp hb ▸ hab ▸ ha)⟩
  · simpa [or_imp, forall_and] using ⟨hw.lt, hnext⟩
  · rw [hends, hw.ahead next hfresh]
    simp [hne]
  · rw [hends, List.length_append]
    rcases List.mem_append.mp hs with hseen | hlast
    · have hsn : s ≠ next := fun h => hfresh (h ▸ hseen)
      rw [hw.passed s hseen hs0]
      by_cases hsc : s = current
      · simp [hsc, hne, hne.symm]
      · simp [hsc, Ne.symm hsc, hsn, hsn.symm]
    · rw [List.mem_singleton.mp hlast, hw.ahead next hfresh]
      simp [hne]
  · rw [List.mem_append, List.mem_singleton, not_or] at hs
    have hsc : current ≠ s := fun h => hs.1 (h ▸ hw.current_mem)
    rw [hends, hw.ahead s hs.1]
    simp [hsc, Ne.symm hs.2]

theorem OnWalk.walk (hg : TwoEnds g n pairs) {steps : Nat} {seen : List Nat}
    {taken : List (Nat × Nat)} {previous : Option Nat} {current : Nat}
    (hw : OnWalk n pairs seen taken previous current) (henough : n < steps + seen.length) :
    (seen ++ g.walk steps previous current).Nodup ∧
      (∀ s ∈ seen ++ g.walk steps previous current, s < n) ∧
      undirected (taken ++ homeward current (g.walk steps previous current)) ≤ undirected pairs ∧
      Circles g previous current (g.walk steps previous current) := by
  induction steps generalizing seen taken previous current with
  | zero =>
      have := hw.length_le
      omega
  | succ steps ih =>
      obtain ⟨a, b, next, hab, hstep, hlt, hle⟩ := hw.next hg
      have hwalk : g.walk (steps + 1) previous current =
          if next = 0 then [] else next :: g.walk steps (some current) next := by
        rw [TourGraph.walk, hab, ← hstep]
      rw [hwalk]
      split
      · rename_i hzero
        rw [List.append_nil]
        rw [hzero] at hle
        exact ⟨hw.nodup, hw.lt, hle, .home hab (hstep.trans hzero)⟩
      · rename_i hzero
        obtain ⟨hnodup, hall, hused, hcircles⟩ := ih (hw.step hg hlt hzero hle)
          (by rw [List.length_append, List.length_singleton]; omega)
        rw [List.append_assoc] at hnodup hall hused
        exact ⟨hnodup, hall, hused, .on hab hstep hzero hcircles⟩

/-- Where every city has two ends, the walk from city 0 comes back to it along edges of which none
is used more often than it is there. -/
theorem TwoEnds.walk_spec (hg : TwoEnds g n pairs) (hn : 1 ≤ n) :
    (0 :: g.walk n none 0).Nodup ∧ (∀ s ∈ 0 :: g.walk n none 0, s < n) ∧
      undirected (legs (0 :: g.walk n none 0)) ≤ undirected pairs ∧
      Circles g none 0 (g.walk n none 0) := by
  have hstart : OnWalk n pairs [0] [] none 0 :=
    ⟨by simp, by simp; omega, by simp, Multiset.zero_le _, rfl, by simp, fun _ _ => rfl⟩
  rw [legs_cons_zero]
  exact hstart.walk hg (by simp)

/-- No edge leaves the cities of such a walk. -/
theorem TwoEnds.closed (hg : TwoEnds g n pairs) {tour : List Nat} (hnodup : tour.Nodup)
    (hlt : ∀ k ∈ tour, k < n) (hle : undirected (legs tour) ≤ undirected pairs) {k l : Nat}
    (hk : k ∈ tour) (hl : l ∈ ends pairs k) : l ∈ tour := by
  have hsame : (ends (legs tour) k : Multiset Nat) = ends pairs k := by
    refine Multiset.eq_of_le_of_card_le (ends_le hle k) ?_
    rw [Multiset.coe_card, Multiset.coe_card, hg.two k (hlt k hk), length_ends_legs,
      List.count_eq_one_of_mem hnodup hk]
  rw [← Multiset.mem_coe, ← hsame, Multiset.mem_coe] at hl
  obtain ⟨p, hp, rfl | rfl⟩ := mem_ends.mp hl
  · exact (mem_of_mem_legs hp).2
  · exact (mem_of_mem_legs hp).1

theorem perm_range_of_length {tour : List Nat} (hnodup : tour.Nodup) (hlt : ∀ k ∈ tour, k < n)
    (hlength : tour.length = n) : tour.Perm (List.range n) :=
  (List.subperm_of_subset hnodup fun k hk => List.mem_range.mpr (hlt k hk)).perm_of_length_le
    (by simp [hlength])

/-- A walk through all cities uses all edges. -/
theorem TwoEnds.undirected_eq (hg : TwoEnds g n pairs) {tour : List Nat} (hlength : tour.length = n)
    (hle : undirected (legs tour) ≤ undirected pairs) :
    undirected (legs tour) = undirected pairs :=
  Multiset.eq_of_le_of_card_le hle (by
    rw [card_undirected, card_undirected, length_legs, hg.length_eq, hlength])

theorem OneCycle.length_ends (h : OneCycle n pairs) {k : Nat} (hk : k < n) :
    (ends pairs k).length = 2 := by
  obtain ⟨cycle, hcycle, hsame⟩ := h
  have hcount : cycle.count k = 1 := by
    rw [hcycle.count_eq]
    exact List.count_eq_one_of_mem List.nodup_range (List.mem_range.mpr hk)
  have hlegs : (ends pairs k).length = (ends (legs cycle) k).length :=
    Nat.le_antisymm (length_ends_le hsame.ge k) (length_ends_le hsame.le k)
  rw [hlegs, length_ends_legs, hcount]

/-- The walk goes through all cities just when the edges are a single closed cycle. -/
theorem TwoEnds.length_walk_iff (hg : TwoEnds g n pairs) (hn : 1 ≤ n) :
    (0 :: g.walk n none 0).length = n ↔ OneCycle n pairs := by
  obtain ⟨hnodup, hlt, hle, -⟩ := hg.walk_spec hn
  refine ⟨fun hlength => ⟨_, perm_range_of_length hnodup hlt hlength,
    hg.undirected_eq hlength hle⟩, ?_⟩
  rintro ⟨cycle, hcycle, hsame⟩
  have hstay : ∀ p ∈ legs cycle, p.1 ∈ 0 :: g.walk n none 0 → p.2 ∈ 0 :: g.walk n none 0 := by
    intro p hp hmem
    refine hg.closed hnodup hlt hle hmem ?_
    have hend : p.2 ∈ ends (legs cycle) p.1 := mem_ends.mpr ⟨p, hp, Or.inl rfl⟩
    exact Multiset.mem_of_le (ends_le hsame.le p.1) hend
  have hall : List.range n ⊆ 0 :: g.walk n none 0 := fun k hk =>
    mem_of_legs hcycle hstay hn List.mem_cons_self (List.mem_range.mp hk)
  refine Nat.le_antisymm ?_ ?_
  · simpa using hnodup.length_le_of_subset fun k hk => List.mem_range.mpr (hlt k hk)
  · simpa using List.nodup_range.length_le_of_subset hall

/-! ### Extraction -/

theorem join_getElem? (i j k : Nat) : (g.join i j)[k]? =
    (g[k]?).map (· ++ ((if i = k then [j] else []) ++ if j = k then [i] else [])) := by
  simp only [join, Array.getElem?_modify]
  by_cases hi : i = k <;> by_cases hj : j = k <;> cases g[k]? <;> simp [hi, hj]

theorem city_ok {k : Nat} (hk : k < g.size) : g.city (Instance.city k) = .ok k := by
  have hk' : (0 : Int) ≤ (k : Int) ∧ (k : Int) < g.size := by omega
  rw [Instance.city, city, if_pos hk']
  rfl

variable {α : Type}

def keyed (entries : List ((Nat × Nat) × α)) : EdgeValues α :=
  ⟨entries.map fun e => (Instance.edge e.1.1 e.1.2, e.2)⟩

variable [Scalar α]

/-- The pairs of value above one half. -/
def usedPairs (entries : List ((Nat × Nat) × α)) : List (Nat × Nat) :=
  (entries.filter fun e => decide (Scalar.half < e.2)).map Prod.fst

theorem addEdges_keyed {entries : List ((Nat × Nat) × α)}
    (hrange : ∀ e ∈ entries, e.1.1 < g.size ∧ e.1.2 < g.size) :
    ∃ g', addEdges g (keyed entries).entries = .ok g' ∧ g'.size = g.size ∧
      ∀ k : Nat, g'[k]? = (g[k]?).map (· ++ ends (usedPairs entries) k) := by
  induction entries generalizing g with
  | nil => exact ⟨g, rfl, rfl, fun k => by cases g[k]? <;> simp [usedPairs, ends]⟩
  | cons e entries ih =>
      obtain ⟨h₁, h₂⟩ := hrange e List.mem_cons_self
      have hrest := fun q hq => hrange q (List.mem_cons_of_mem e hq)
      have hadd : addEdges g (keyed (e :: entries)).entries =
          if Scalar.half < e.2 then g.city (Instance.city e.1.1) >>= fun a =>
            g.city (Instance.city e.1.2) >>= fun b => addEdges (g.join a b) (keyed entries).entries
          else addEdges g (keyed entries).entries := rfl
      rw [hadd]
      split
      · rename_i hused
        have hsize : (g.join e.1.1 e.1.2).size = g.size := by simp [join]
        obtain ⟨g', hg', hsize', hget⟩ := ih (g := g.join e.1.1 e.1.2) (by rwa [hsize])
        refine ⟨g', ?_, hsize'.trans hsize, fun k => ?_⟩
        · rw [city_ok h₁, city_ok h₂]
          exact hg'
        · rw [hget, join_getElem?, Option.map_map]
          simp [usedPairs, ends, hused, Function.comp_def]
      · rename_i hunused
        obtain ⟨g', hg', hsize', hget⟩ := ih hrest
        exact ⟨g', hg', hsize', fun k => by rw [hget]; simp [usedPairs, hunused]⟩

theorem extractTour_keyed {entries : List ((Nat × Nat) × α)} (hn : 1 ≤ n)
    (hrange : ∀ e ∈ entries, e.1.1 < n ∧ e.1.2 < n) :
    ∃ g, addEdges (Array.replicate n []) (keyed entries).entries = .ok g ∧
      ((∀ adjacent ∈ g, adjacent.length = 2) ↔
        ∀ k < n, (ends (usedPairs entries) k).length = 2) ∧
      extractTour (keyed entries) n =
        .ok (if (∀ adjacent ∈ g, adjacent.length = 2) ∧ (0 :: g.walk n none 0).length = n then
          0 :: g.walk n none 0 else []) ∧
      ∀ k < n, g[k]? = some (ends (usedPairs entries) k) := by
  have hsized : ∀ e ∈ entries, e.1.1 < (Array.replicate n ([] : List Nat)).size ∧
      e.1.2 < (Array.replicate n ([] : List Nat)).size := by
    simpa using hrange
  obtain ⟨g, hg, hsize, hget⟩ := addEdges_keyed hsized
  rw [Array.size_replicate] at hsize
  have hentry : ∀ k < n, g[k]? = some (ends (usedPairs entries) k) := by
    intro k hk
    rw [hget, Array.getElem?_replicate, if_pos hk]
    simp
  refine ⟨g, hg, ⟨fun hall k hk => hall _ (Array.mem_of_getElem? (hentry k hk)),
    fun htwo adjacent hmem => ?_⟩, ?_, hentry⟩
  · obtain ⟨k, hk, rfl⟩ := Array.getElem_of_mem hmem
    have hk' := hentry k (hsize ▸ hk)
    rw [Array.getElem?_eq_getElem hk, Option.some_inj] at hk'
    rw [hk']
    exact htwo k (hsize ▸ hk)
  · simp only [extractTour, Int.toNat_natCast]
    rw [hg]
    show (if _ then _ else _) = _
    by_cases hall : ∀ adjacent ∈ g, adjacent.length = 2
    · have hany : (g.any fun adjacent => adjacent.length != 2) = false := by
        rw [Array.any_eq_false']
        simpa using hall
      rw [hany, if_neg Bool.false_ne_true, if_neg (by omega)]
      exact congrArg Except.ok (if_congr (and_iff_right hall) rfl rfl).symm
    · have hany : (g.any fun adjacent => adjacent.length != 2) = true := by
        rw [Array.any_eq_true']
        simpa using hall
      rw [if_pos hany, if_neg fun h => hall h.1]
      rfl

/-- The extraction decides whether the used edges are one closed cycle. The values may belong to
pairs in either orientation or in both, and to loops. The walk is begun only where every city has
two ends, and there it stops by itself. A tour is found just when the used edges are a single closed
cycle through all cities, and then its legs are the used edges, each as often as it is used. -/
theorem extractTour_decides {entries : List ((Nat × Nat) × α)} (hn : 1 ≤ n)
    (hrange : ∀ e ∈ entries, e.1.1 < n ∧ e.1.2 < n) :
    ∃ g tour, addEdges (Array.replicate n []) (keyed entries).entries = .ok g ∧
      ((∀ adjacent ∈ g, adjacent.length = 2) →
        ∀ cities, Circles g none 0 cities ↔ cities = g.walk n none 0) ∧
      extractTour (keyed entries) n = .ok tour ∧
      (tour ≠ [] ↔ OneCycle n (usedPairs entries)) ∧
      (tour ≠ [] → tour.Perm (List.range n) ∧ tour.head? = some 0 ∧
        undirected (legs tour) = undirected (usedPairs entries)) := by
  obtain ⟨g, hg, htwo, hextract, hget⟩ := extractTour_keyed hn hrange
  have hlt : ∀ p ∈ usedPairs entries, p.1 < n ∧ p.2 < n := by
    intro p hp
    obtain ⟨e, he, rfl⟩ := List.mem_map.mp hp
    exact hrange e (List.mem_filter.mp he).1
  refine ⟨g, _, hg, fun hall cities => ?_, hextract, ?_, fun hfound => ?_⟩
  · obtain ⟨-, -, -, hcircles⟩ := TwoEnds.walk_spec ⟨hlt, hget, htwo.mp hall⟩ hn
    exact ⟨fun h => h.unique hcircles, fun h => h ▸ hcircles⟩
  · split
    · rename_i hfound
      exact iff_of_true (List.cons_ne_nil _ _)
        ((TwoEnds.length_walk_iff ⟨hlt, hget, htwo.mp hfound.1⟩ hn).mp hfound.2)
    · rename_i hnone
      refine iff_of_false (fun h => h rfl) fun hcycle => hnone ?_
      have hall : ∀ k < n, (ends (usedPairs entries) k).length = 2 := fun k hk =>
        hcycle.length_ends hk
      exact ⟨htwo.mpr hall, (TwoEnds.length_walk_iff ⟨hlt, hget, hall⟩ hn).mpr hcycle⟩
  · by_cases h : (∀ adjacent ∈ g, adjacent.length = 2) ∧ (0 :: g.walk n none 0).length = n
    · rw [if_pos h]
      have hends : TwoEnds g n (usedPairs entries) := ⟨hlt, hget, htwo.mp h.1⟩
      obtain ⟨hnodup, hall, hle, -⟩ := hends.walk_spec hn
      exact ⟨perm_range_of_length hnodup hall h.2, rfl, hends.undirected_eq h.2 hle⟩
    · exact absurd (if_neg h) hfound

/-- Five pairs of four cities, two of them led through against the direction of the tour, one worth
exactly one half, and a loop. -/
def fourCities : List ((Nat × Nat) × Extended) :=
  [((2, 0), .finite 1), ((0, 1), .finite 1), ((1, 2), .finite (1 / 2)), ((3, 1), .finite (3 / 4)),
    ((3, 3), .finite 0), ((2, 3), .finite 2)]

theorem extractTour_decides_fourCities :
    extractTour (keyed fourCities) 4 = .ok [0, 2, 3, 1] ∧ OneCycle 4 (usedPairs fourCities) := by
  obtain ⟨-, tour, -, -, hextract, hfound, -⟩ :=
    extractTour_decides (by decide : 1 ≤ 4) (by decide : ∀ e ∈ fourCities, e.1.1 < 4 ∧ e.1.2 < 4)
  have hvalue : extractTour (keyed fourCities) 4 = .ok [0, 2, 3, 1] := by decide +kernel
  have htour : tour = [0, 2, 3, 1] := by
    injection hextract.symm.trans hvalue
  exact ⟨hvalue, hfound.mp (htour ▸ List.cons_ne_nil _ _)⟩

/-- Two cities joined in both orientations are a tour, and so is a city with a loop. -/
example : extractTour (keyed [((0, 1), Extended.finite 1), ((1, 0), .finite 1)]) 2 =
    .ok [0, 1] ∧ extractTour (keyed [((0, 0), Extended.finite 1)]) 1 = .ok [0] := by
  decide +kernel

end TourGraph
end TourSearch
