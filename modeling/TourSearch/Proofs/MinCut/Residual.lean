import TourSearch.MinCut.Residual
import Mathlib

/-!
Maximum flows leave minimum cuts. An augmentation along a route from the source to the sink takes
the same amount from every set that holds the source and not the sink (`leaving_augment`). When the
source cannot reach the sink any more, nothing is left to leave the vertices that cannot, so that
they were a minimum cut from the beginning (`smallestSinkSide_spec`).

Sets of vertices are given by a test, as elsewhere.
-/

namespace TourSearch.MinCut.Residual

variable {r : Residual}

/-! ### Capacities -/

def Square (r : Residual) : Prop :=
  ∀ u < r.size, ∃ row : Array Nat, r.table[u]? = some row ∧ row.size = r.size

theorem Square.change (hr : r.Square) (u v : Nat) (f : Nat → Nat) : (r.change u v f).Square := by
  intro a ha
  obtain ⟨row, hrow, hsize⟩ := hr a ha
  by_cases hua : u = a
  · exact ⟨row.modify v f, by simp [Residual.change, Array.getElem?_modify, hua, hrow],
      Array.size_modify.trans hsize⟩
  · exact ⟨row, by simp [Residual.change, Array.getElem?_modify, hua, hrow], hsize⟩

theorem capacity_change (hr : r.Square) {u v : Nat} (hu : u < r.size) (hv : v < r.size)
    (f : Nat → Nat) (a b : Nat) :
    (r.change u v f).capacity a b =
      if a = u ∧ b = v then f (r.capacity u v) else r.capacity a b := by
  obtain ⟨row, hrow, hsize⟩ := hr u hu
  by_cases hau : u = a
  · subst hau
    obtain ⟨x, hsome⟩ : ∃ x, row[v]? = some x := ⟨_, Array.getElem?_eq_getElem (hsize ▸ hv)⟩
    by_cases hbv : v = b
    · subst hbv
      simp [capacity, Residual.change, Array.getElem?_modify, hrow, hsome]
    · simp [capacity, Residual.change, Array.getElem?_modify, hrow, hbv, Ne.symm hbv]
  · simp [capacity, Residual.change, Array.getElem?_modify, hau, Ne.symm hau]

theorem Square.push (hr : r.Square) (amount : Nat) (arc : Nat × Nat) :
    (r.push amount arc).Square := (hr.change _ _ _).change _ _ _

theorem capacity_push (hr : r.Square) {u v : Nat} (hu : u < r.size) (hv : v < r.size)
    (huv : u ≠ v) (amount a b : Nat) :
    (r.push amount (u, v)).capacity a b =
      if a = u ∧ b = v then r.capacity u v - amount
      else if a = v ∧ b = u then r.capacity v u + amount
      else r.capacity a b := by
  rw [push, capacity_change (hr.change _ _ _) hv hu, capacity_change hr hu hv,
    capacity_change hr hu hv]
  by_cases h₁ : a = u ∧ b = v
  · have h₂ : ¬(a = v ∧ b = u) := fun h => huv (h₁.1.symm.trans h.1)
    rw [if_neg h₂, if_pos h₁, if_pos h₁]
  · rw [if_neg h₁, if_neg h₁]
    have h₂ : ¬(v = u ∧ u = v) := fun h => huv h.2
    rw [if_neg h₂]

/-- The capacity that leaves a set. -/
def leaving (r : Residual) (A : Nat → Bool) : Int :=
  ∑ u ∈ Finset.range r.size, ∑ v ∈ Finset.range r.size,
    if A u = true ∧ A v = false then (r.capacity u v : Int) else 0

theorem leaving_nonneg (r : Residual) (A : Nat → Bool) : 0 ≤ r.leaving A := by
  refine Finset.sum_nonneg fun u _ => Finset.sum_nonneg fun v _ => ?_
  split <;> omega

theorem sum_pair {n u v : Nat} (hu : u < n) (hv : v < n) (A : Nat → Bool) (x : Int) :
    (∑ a ∈ Finset.range n, ∑ b ∈ Finset.range n,
      if A a = true ∧ A b = false then (if a = u ∧ b = v then x else 0) else 0) =
      if A u = true ∧ A v = false then x else 0 := by
  rw [Finset.sum_eq_single u, Finset.sum_eq_single v]
  · simp
  · intro b _ hb
    simp [hb]
  · intro h
    exact absurd (Finset.mem_range.mpr hv) h
  · intro a _ ha
    simp [ha]
  · intro h
    exact absurd (Finset.mem_range.mpr hu) h

theorem leaving_change (hr : r.Square) {u v : Nat} (hu : u < r.size) (hv : v < r.size)
    (f : Nat → Nat) (A : Nat → Bool) :
    (r.change u v f).leaving A = r.leaving A +
      if A u = true ∧ A v = false then (f (r.capacity u v) : Int) - r.capacity u v else 0 := by
  rw [← sum_pair hu hv A, leaving, leaving, ← Finset.sum_add_distrib]
  refine Finset.sum_congr rfl fun a _ => ?_
  rw [← Finset.sum_add_distrib]
  refine Finset.sum_congr rfl fun b _ => ?_
  rw [capacity_change hr hu hv]
  by_cases hab : a = u ∧ b = v
  · rw [if_pos hab, if_pos hab, hab.1, hab.2]
    split <;> simp
  · rw [if_neg hab, if_neg hab]
    simp

def indicator (A : Nat → Bool) (v : Nat) : Int := if A v then 1 else 0

/-- Sending an amount over an arc changes what leaves a set by the sides of its ends. -/
theorem leaving_push (hr : r.Square) {u v : Nat} (hu : u < r.size) (hv : v < r.size) (huv : u ≠ v)
    {amount : Nat} (hle : amount ≤ r.capacity u v) (A : Nat → Bool) :
    (r.push amount (u, v)).leaving A =
      r.leaving A - amount * (indicator A u - indicator A v) := by
  have hback : (r.change u v (· - amount)).capacity v u = r.capacity v u := by
    rw [capacity_change hr hu hv, if_neg fun h => huv h.2]
  rw [push, leaving_change (hr.change _ _ _) hv hu, leaving_change hr hu hv, hback, indicator,
    indicator]
  cases A u <;> cases A v <;> simp
  omega

/-! ### Augmenting -/

/-- Arcs of positive capacity that lead from one vertex to another and never come back to a vertex.
-/
inductive Leads (r : Residual) (sink : Nat) : Nat → List (Nat × Nat) → Prop
  | here : Leads r sink sink []
  | step {u v : Nat} {arcs : List (Nat × Nat)} (hu : u < r.size) (hv : v < r.size)
      (hpos : 0 < r.capacity u v) (rest : Leads r sink v arcs)
      (fresh : ∀ arc ∈ arcs, arc.1 ≠ u ∧ arc.2 ≠ u) (hne : v ≠ u) : Leads r sink u ((u, v) :: arcs)

theorem bottleneck_pos {sink u : Nat} {arcs : List (Nat × Nat)} (h : Leads r sink u arcs)
    (hne : arcs ≠ []) : 0 < r.bottleneck arcs := by
  induction h with
  | here => exact absurd rfl hne
  | @step u v arcs _ _ hpos rest _ _ ih =>
      cases arcs with
      | nil => exact hpos
      | cons arc arcs => exact Nat.lt_min.mpr ⟨hpos, ih (by simp)⟩

theorem bottleneck_le (r : Residual) {arcs : List (Nat × Nat)} {arc : Nat × Nat}
    (h : arc ∈ arcs) : r.bottleneck arcs ≤ r.capacity arc.1 arc.2 := by
  induction arcs with
  | nil => cases h
  | cons first arcs ih =>
      cases arcs with
      | nil => rw [List.mem_singleton.mp h, bottleneck]
      | cons second arcs =>
          rcases List.mem_cons.mp h with rfl | h
          · exact Nat.min_le_left _ _
          · exact (Nat.min_le_right _ _).trans (ih h)

@[simp] theorem size_push (amount : Nat) (arc : Nat × Nat) :
    (r.push amount arc).size = r.size := rfl

/-- Sending an amount along arcs, each of which still has it when its turn comes. -/
theorem leaving_sends {sink u amount : Nat} {arcs : List (Nat × Nat)} {r₀ : Residual}
    (h : Leads r₀ sink u arcs) (hr : r.Square) (hsize : r.size = r₀.size)
    (henough : ∀ arc ∈ arcs, amount ≤ r.capacity arc.1 arc.2) (A : Nat → Bool) :
    (arcs.foldl (fun r' arc => r'.push amount arc) r).Square ∧
      (arcs.foldl (fun r' arc => r'.push amount arc) r).size = r.size ∧
      (arcs.foldl (fun r' arc => r'.push amount arc) r).leaving A =
        r.leaving A - amount * (indicator A u - indicator A sink) := by
  induction h generalizing r with
  | here => simp [hr]
  | @step u v arcs hu hv _ _ fresh hne ih =>
      rw [← hsize] at hu hv
      have hfirst := henough (u, v) List.mem_cons_self
      -- The first arc shares no pair of vertices with a later one.
      have hrest : ∀ arc ∈ arcs, amount ≤ (r.push amount (u, v)).capacity arc.1 arc.2 := by
        intro arc harc
        obtain ⟨hne₁, hne₂⟩ := fresh arc harc
        rw [capacity_push hr hu hv hne.symm, if_neg fun h => hne₁ h.1, if_neg fun h => hne₂ h.2]
        exact henough arc (List.mem_cons_of_mem _ harc)
      obtain ⟨hsquare, hsame, hleaving⟩ := ih (hr.push amount (u, v)) hsize hrest
      rw [List.foldl_cons]
      refine ⟨hsquare, hsame, ?_⟩
      rw [hleaving, leaving_push hr hu hv hne.symm hfirst]
      ring

/-- An augmentation takes the same amount from every set between the source and the sink. -/
theorem leaving_augment {source sink : Nat} {arcs : List (Nat × Nat)} (hr : r.Square)
    (h : Leads r sink source arcs) {A : Nat → Bool} (hsource : A source = true)
    (hsink : A sink = false) :
    (r.augment arcs).leaving A = r.leaving A - r.bottleneck arcs := by
  have := (leaving_sends h hr rfl (fun arc harc => r.bottleneck_le harc) A).2.2
  rw [augment, this]
  simp [indicator, hsource, hsink]

/-! ### Routes to the sink -/

/-- Vertices with the next vertex on their way to the sink, which was found before them. -/
inductive Rooted (r : Residual) (sink : Nat) : List (Nat × Nat) → Prop
  | start (hsink : sink < r.size) : Rooted r sink [(sink, sink)]
  | add {found : List (Nat × Nat)} {u v : Nat} (h : Rooted r sink found) (hu : u < r.size)
      (fresh : u ∉ found.map (·.1)) (hv : v ∈ found.map (·.1)) (hpos : 0 < r.capacity u v) :
      Rooted r sink (found ++ [(u, v)])

variable {sink : Nat} {found : List (Nat × Nat)}

theorem Rooted.sink_mem (h : Rooted r sink found) : sink ∈ found.map (·.1) := by
  induction h with
  | start => simp
  | add _ _ _ _ _ ih => simp_all

theorem Rooted.nodup (h : Rooted r sink found) : (found.map (·.1)).Nodup := by
  induction h with
  | start => simp
  | add _ _ fresh _ _ ih =>
      rw [List.map_append, List.nodup_append]
      refine ⟨ih, by simp, ?_⟩
      rintro a ha b hb rfl
      simp only [List.map_cons, List.map_nil, List.mem_singleton] at hb
      exact fresh (hb ▸ ha)

theorem Rooted.lt_size (h : Rooted r sink found) : ∀ v ∈ found.map (·.1), v < r.size := by
  induction h with
  | start hsink => simpa using hsink
  | add _ hu _ _ _ ih =>
      intro v hv
      rw [List.map_append, List.mem_append] at hv
      rcases hv with hv | hv
      · exact ih v hv
      · rw [List.mem_singleton.mp hv]
        exact hu

theorem Rooted.next_mem (h : Rooted r sink found) : ∀ entry ∈ found, entry.2 ∈ found.map (·.1) := by
  induction h with
  | start => simp
  | add _ _ _ hv _ ih =>
      intro entry hentry
      rw [List.map_append]
      rcases List.mem_append.mp hentry with hentry | hentry
      · exact List.mem_append_left _ (ih entry hentry)
      · rw [List.mem_singleton.mp hentry]
        exact List.mem_append_left _ hv

theorem Rooted.length_le (h : Rooted r sink found) : found.length ≤ r.size := by
  have hcard : (found.map (·.1)).toFinset.card = found.length := by
    rw [List.toFinset_card_of_nodup h.nodup, List.length_map]
  rw [← hcard, ← Finset.card_range r.size]
  refine Finset.card_le_card fun v hv => ?_
  exact Finset.mem_range.mpr (h.lt_size v (List.mem_toFinset.mp hv))

/-- Vertices of one more layer. -/
theorem Rooted.append (h : Rooted r sink found) {new : List (Nat × Nat)}
    (hnew : ∀ entry ∈ new, entry.1 < r.size ∧ entry.1 ∉ found.map (·.1) ∧
      entry.2 ∈ found.map (·.1) ∧ 0 < r.capacity entry.1 entry.2)
    (hnodup : (new.map (·.1)).Nodup) : Rooted r sink (found ++ new) := by
  induction new generalizing found with
  | nil => simpa using h
  | cons entry new ih =>
      obtain ⟨hu, hfresh, hv, hpos⟩ := hnew entry List.mem_cons_self
      rw [List.map_cons, List.nodup_cons] at hnodup
      have hadded : Rooted r sink (found ++ [entry]) := h.add hu hfresh hv hpos
      rw [List.append_cons]
      refine ih hadded (fun e he => ?_) hnodup.2
      obtain ⟨hlt, hnot, hin, hcap⟩ := hnew e (List.mem_cons_of_mem _ he)
      rw [List.map_append]
      refine ⟨hlt, fun hmem => ?_, List.mem_append_left _ hin, hcap⟩
      rcases List.mem_append.mp hmem with hmem | hmem
      · exact hnot hmem
      · simp only [List.map_cons, List.map_nil, List.mem_singleton] at hmem
        exact hnodup.1 (hmem ▸ List.mem_map_of_mem he)

theorem any_fst_eq {u : Nat} : found.any (·.1 == u) = true ↔ u ∈ found.map (·.1) := by
  simp [List.any_eq_true]

theorem mem_layer {entry : Nat × Nat} : entry ∈ r.layer found → entry.1 < r.size ∧
    entry.1 ∉ found.map (·.1) ∧ entry.2 ∈ found.map (·.1) ∧ 0 < r.capacity entry.1 entry.2 := by
  intro h
  obtain ⟨u, hu, hsome⟩ := List.mem_filterMap.mp h
  split at hsome
  · cases hsome
  · rename_i hnot
    rw [any_fst_eq] at hnot
    obtain ⟨e, he, rfl⟩ := Option.map_eq_some_iff.mp hsome
    exact ⟨List.mem_range.mp hu, hnot, List.mem_map_of_mem (List.mem_of_find?_eq_some he),
      of_decide_eq_true (List.find?_some he :)⟩

theorem nodup_layer (r : Residual) (found : List (Nat × Nat)) :
    ((r.layer found).map (·.1)).Nodup := by
  have hsub : ∀ l : List Nat, ((l.filterMap fun u =>
      if found.any (·.1 == u) then none
      else (found.find? fun entry => decide (0 < r.capacity u entry.1)).map
        fun entry => (u, entry.1)).map (·.1)).Sublist l := by
    intro l
    induction l with
    | nil => simp
    | cons u l ih =>
        rw [List.filterMap_cons]
        split
        · exact ih.cons u
        · rename_i entry hentry
          split at hentry
          · cases hentry
          · obtain ⟨e, -, rfl⟩ := Option.map_eq_some_iff.mp hentry
            exact ih.cons_cons u
  exact (hsub _).nodup List.nodup_range

/-- When there is no further layer, nothing is left toward the vertices found. -/
theorem capacity_of_layer_nil (h : r.layer found = []) {u v : Nat} (hu : u < r.size)
    (hfresh : u ∉ found.map (·.1)) (hv : v ∈ found.map (·.1)) : r.capacity u v = 0 := by
  have hnone := List.filterMap_eq_nil_iff.mp h u (List.mem_range.mpr hu)
  rw [if_neg fun hany => hfresh (any_fst_eq.mp hany), Option.map_eq_none_iff] at hnone
  obtain ⟨entry, hentry, rfl⟩ := List.mem_map.mp hv
  simpa using List.find?_eq_none.mp hnone entry hentry

theorem Rooted.grow (h : Rooted r sink found) (rounds : Nat) :
    Rooted r sink (r.grow rounds found) := by
  induction rounds generalizing found with
  | zero => exact h
  | succ rounds ih =>
      rw [Residual.grow]
      split
      · exact h
      · exact ih (h.append (fun _ => mem_layer) (nodup_layer r found))

/-- Every round finds a vertex until there is none to find. -/
theorem Rooted.layer_grow (h : Rooted r sink found) {rounds : Nat}
    (henough : r.size ≤ found.length + rounds) : r.layer (r.grow rounds found) = [] := by
  induction rounds generalizing found with
  | zero =>
      refine List.eq_nil_iff_forall_not_mem.mpr fun entry hentry => ?_
      have hbigger : Rooted r sink (found ++ [entry]) :=
        h.append (fun e he => List.mem_singleton.mp he ▸ mem_layer hentry) (by simp)
      have := hbigger.length_le
      rw [List.length_append, List.length_singleton] at this
      omega
  | succ rounds ih =>
      rw [Residual.grow]
      split
      · rename_i hempty
        exact List.isEmpty_iff.mp hempty
      · rename_i hmore
        have hpos : 0 < (r.layer found).length := by
          rw [List.length_pos_iff]
          exact fun hnil => hmore (by simp [hnil])
        refine ih (h.append (fun _ => mem_layer) (nodup_layer r found)) ?_
        rw [List.length_append]
        omega

theorem find?_fst_eq {u : Nat} (h : u ∈ found.map (·.1)) :
    ∃ next, (u, next) ∈ found ∧ found.find? (·.1 == u) = some (u, next) := by
  obtain ⟨entry, hentry, rfl⟩ := List.mem_map.mp h
  cases hfind : found.find? (·.1 == entry.1) with
  | none => exact absurd (List.find?_eq_none.mp hfind entry hentry) (by simp)
  | some other =>
      have heq : other.1 = entry.1 := by simpa using List.find?_some hfind
      exact ⟨other.2, heq ▸ List.mem_of_find?_eq_some hfind, by rw [← heq]⟩

/-- A vertex found later does not change a route. -/
theorem Rooted.route_append (h : Rooted r sink found) {u : Nat} (hu : u ∈ found.map (·.1))
    (new : List (Nat × Nat)) (steps : Nat) :
    route (found ++ new) sink steps u = route found sink steps u := by
  induction steps generalizing u with
  | zero => rfl
  | succ steps ih =>
      obtain ⟨next, hmem, hfind⟩ := find?_fst_eq hu
      rw [route, route, List.find?_append, hfind, Option.some_or]
      split
      · rfl
      · simp only [ih (h.next_mem _ hmem)]

theorem Rooted.leads (h : Rooted r sink found) {u steps : Nat} (hu : u ∈ found.map (·.1))
    (henough : found.length ≤ steps + 1) :
    Leads r sink u (route found sink steps u) ∧ ∀ arc ∈ route found sink steps u,
      arc.1 ∈ found.map (·.1) ∧ arc.2 ∈ found.map (·.1) := by
  induction h generalizing u steps with
  | start hsink =>
      have hroute : route [(sink, sink)] sink steps u = [] := by
        rw [List.map_singleton, List.mem_singleton] at hu
        cases steps with
        | zero => rfl
        | succ steps => rw [route, if_pos hu]
      rw [hroute]
      rw [List.map_singleton, List.mem_singleton] at hu
      exact ⟨hu ▸ .here, by simp⟩
  | @add found w v h hw fresh hv hpos ih =>
      rw [List.length_append, List.length_singleton] at henough
      rw [List.map_append, List.mem_append] at hu
      rcases hu with hu | hu
      · rw [h.route_append hu]
        obtain ⟨hleads, hends⟩ := ih hu (by omega : found.length ≤ steps + 1)
        refine ⟨hleads, fun arc harc => ?_⟩
        rw [List.map_append]
        exact ⟨List.mem_append_left _ (hends arc harc).1,
          List.mem_append_left _ (hends arc harc).2⟩
      · -- The last vertex found: its arc leads to one found before.
        have huw : u = w := by simpa using hu
        have hlength : 0 < found.length := by
          rw [List.length_pos_iff]
          rintro rfl
          simp at hv
        obtain ⟨k, rfl⟩ : ∃ k, steps = k + 1 := ⟨steps - 1, by omega⟩
        obtain ⟨hleads, hends⟩ := ih hv (by omega : found.length ≤ k + 1)
        have hsinkw : u ≠ sink := fun hsink => fresh (huw ▸ hsink ▸ h.sink_mem)
        have hnone : found.find? (·.1 == u) = none := by
          rw [List.find?_eq_none]
          intro entry hentry hentryu
          exact fresh (huw ▸ List.mem_map.mpr ⟨entry, hentry, by simpa using hentryu⟩)
        have hroute : route (found ++ [(w, v)]) sink (k + 1) u =
          (u, v) :: route found sink k v := by
          rw [route, if_neg hsinkw, List.find?_append, hnone, Option.none_or]
          simp [huw, h.route_append hv]
        rw [hroute, huw]
        have hne : v ≠ w := fun heq => fresh (heq ▸ hv)
        refine ⟨.step hw (h.lt_size v hv) hpos hleads (fun arc harc => ?_) hne, ?_⟩
        · obtain ⟨htail, hhead⟩ := hends arc harc
          exact ⟨fun heq => fresh (heq ▸ htail), fun heq => fresh (heq ▸ hhead)⟩
        · intro arc harc
          rw [List.map_append]
          rcases List.mem_cons.mp harc with rfl | harc
          · exact ⟨by simp, List.mem_append_left _ hv⟩
          · exact ⟨List.mem_append_left _ (hends arc harc).1,
              List.mem_append_left _ (hends arc harc).2⟩

theorem rooted_towardSink (hsink : sink < r.size) :
    Rooted r sink (r.towardSink sink) ∧ r.layer (r.towardSink sink) = [] :=
  ⟨(Rooted.start hsink).grow r.size, (Rooted.start hsink).layer_grow (by simp)⟩

/-! ### Minimum cuts -/

def away (side : List Nat) (v : Nat) : Bool := !side.contains v

/-- The sink side of a cut that leaves no more than any other between the source and the sink. -/
structure IsSinkSide (r : Residual) (source sink : Nat) (side : List Nat) : Prop where
  source_notMem : source ∉ side
  sink_mem : sink ∈ side
  least : ∀ A : Nat → Bool, A source = true → A sink = false →
    r.leaving (away side) ≤ r.leaving A

theorem augment_route (hr : r.Square) {source : Nat} (hsink : sink < r.size) (hne : source ≠ sink)
    (hsource : source ∈ (r.towardSink sink).map (·.1)) :
    (r.augment (route (r.towardSink sink) sink r.size source)).Square ∧
      (r.augment (route (r.towardSink sink) sink r.size source)).size = r.size ∧
      ∃ amount : Nat, 0 < amount ∧ ∀ A : Nat → Bool, A source = true → A sink = false →
        (r.augment (route (r.towardSink sink) sink r.size source)).leaving A =
          r.leaving A - amount := by
  obtain ⟨hrooted, -⟩ := rooted_towardSink hsink
  obtain ⟨hleads, -⟩ := hrooted.leads hsource (Nat.le_succ_of_le hrooted.length_le)
  have hnonempty : route (r.towardSink sink) sink r.size source ≠ [] := by
    intro hnil
    rw [hnil] at hleads
    cases hleads
    exact hne rfl
  obtain ⟨hsquare, hsize, -⟩ := leaving_sends hleads hr rfl
    (fun arc harc => r.bottleneck_le harc) fun _ => true
  exact ⟨hsquare, hsize, _, bottleneck_pos hleads hnonempty,
    fun A hA hA' => leaving_augment hr hleads hA hA'⟩

theorem isSinkSide_towardSink {source : Nat} (hsink : sink < r.size)
    (hsource : source ∉ (r.towardSink sink).map (·.1)) :
    IsSinkSide r source sink ((r.towardSink sink).map (·.1)) := by
  obtain ⟨hrooted, hclosed⟩ := rooted_towardSink hsink
  refine ⟨hsource, hrooted.sink_mem, fun A _ _ => ?_⟩
  have hzero : r.leaving (away ((r.towardSink sink).map (·.1))) = 0 := by
    refine Finset.sum_eq_zero fun u hu => Finset.sum_eq_zero fun v _ => ?_
    split
    · rename_i hcross
      simp only [away, Bool.not_eq_true', List.contains_eq_mem, decide_eq_false_iff_not,
        Bool.not_eq_false', decide_eq_true_eq] at hcross
      rw [capacity_of_layer_nil hclosed (Finset.mem_range.mp hu) hcross.1 hcross.2]
      rfl
    · rfl
  rw [hzero]
  exact r.leaving_nonneg A

theorem sinkSide_spec (hr : r.Square) {source : Nat} (hsink : sink < r.size) (hne : source ≠ sink)
    {bound : Nat} (hbound : r.leaving (fun v => v == source) ≤ bound) :
    IsSinkSide r source sink (sinkSide source sink bound r) := by
  have halone : (fun v => v == source) sink = false := by simpa using hne.symm
  induction bound generalizing r with
  | zero =>
      rw [sinkSide]
      apply isSinkSide_towardSink hsink
      intro hsource
      obtain ⟨-, -, amount, hpos, hleaving⟩ := augment_route hr hsink hne hsource
      have hle := hleaving (fun v => v == source) (by simp) halone
      have hnonneg := leaving_nonneg (r.augment (route (r.towardSink sink) sink r.size source))
        fun v => v == source
      omega
  | succ bound ih =>
      rw [sinkSide]
      simp only [any_fst_eq]
      split
      · rename_i hsource
        obtain ⟨hsquare, hsize, amount, hpos, hleaving⟩ := augment_route hr hsink hne hsource
        have hle := hleaving (fun v => v == source) (by simp) halone
        have hside := ih hsquare (by rw [hsize]; exact hsink) (by omega)
        refine ⟨hside.source_notMem, hside.sink_mem, fun A hA hA' => ?_⟩
        have hleast := hside.least A hA hA'
        rw [hleaving A hA hA', hleaving _ (by simpa [away] using hside.source_notMem)
          (by simpa [away] using hside.sink_mem)] at hleast
        omega
      · rename_i hsource
        exact isSinkSide_towardSink hsink hsource

theorem leaving_source_le (r : Residual) {source : Nat} (hsource : source < r.size) :
    r.leaving (fun v => v == source) ≤ r.outOf source := by
  have hfold : ∀ (l : List Nat) (total : Nat),
      l.foldl (fun total v => total + r.capacity source v) total =
        total + (l.map (r.capacity source)).sum := by
    intro l
    induction l with
    | nil => simp
    | cons v l ih =>
        intro total
        rw [List.foldl_cons, ih, List.map_cons, List.sum_cons]
        omega
  have hout : (r.outOf source : Int) = ∑ v ∈ Finset.range r.size, (r.capacity source v : Int) := by
    rw [outOf, hfold, zero_add, ← Nat.cast_sum]
    rfl
  rw [hout, leaving, Finset.sum_eq_single source]
  · refine Finset.sum_le_sum fun v _ => ?_
    split <;> omega
  · intro u _ hu
    simp [hu]
  · intro hnot
    exact absurd (Finset.mem_range.mpr hsource) hnot

theorem smallestSinkSide_spec (hr : r.Square) {source : Nat} (hsource : source < r.size)
    (hsink : sink < r.size) (hne : source ≠ sink) :
    IsSinkSide r source sink (r.smallestSinkSide source sink) :=
  sinkSide_spec hr hsink hne (r.leaving_source_le hsource)

end TourSearch.MinCut.Residual
