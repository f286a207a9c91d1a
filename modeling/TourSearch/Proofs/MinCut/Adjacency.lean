import TourSearch.MinCut.Contraction
import TourSearch.Proofs.Graph.Refresh
import TourSearch.Proofs.Mapping
import TourSearch.Proofs.MinCut.Cohesion
import Mathlib

/-!
Adjacencies by their entries. Every operation is described by what it does to a look-up
(`Adjacency.look`); a sound adjacency is symmetric, without loops, and has finite weights that are
not negative. Merging two vertices adds up their weights and keeps all this, and connectedness too.
-/

namespace TourSearch.MinCut

open Numeric

namespace Adjacency

/-- The weight between two vertices, if they are neighbours. -/
def look (h : Adjacency Extended) (u v : Vertex) : Option Extended := (h.get? u).bind (·.get? v)

def weight (h : Adjacency Extended) (u v : Vertex) : Rat :=
  match h.look u v with
  | some x => x.toRat
  | none => 0

theorem look_setArc (h : Adjacency Extended) (u v : Vertex) (x : Extended) (a b : Vertex) :
    (h.setArc u v x).look a b = if u = a ∧ v = b then some x else h.look a b := by
  simp only [look, setArc, Mapping.get?_put]
  by_cases hu : u = a
  · subst hu
    cases hrow : h.get? u with
    | none => by_cases hv : v = b <;> simp [Mapping.get?_put, hv]
    | some row => by_cases hv : v = b <;> simp [Mapping.get?_put, hv]
  · simp [hu]

theorem look_setEdge (h : Adjacency Extended) (u v : Vertex) (x : Extended) (a b : Vertex) :
    (h.setEdge u v x).look a b =
      if (u = a ∧ v = b) ∨ (v = a ∧ u = b) then some x else h.look a b := by
  rw [setEdge, look_setArc, look_setArc]
  by_cases h₁ : v = a ∧ u = b <;> by_cases h₂ : u = a ∧ v = b <;> simp [h₁, h₂]

theorem keys_setArc (h : Adjacency Extended) (u v : Vertex) (x : Extended) :
    (h.setArc u v x).keys = if u ∈ h.keys then h.keys else h.keys ++ [u] := Mapping.keys_put _ _ _

theorem keys_setEdge {h : Adjacency Extended} {u v : Vertex} (hu : u ∈ h.keys) (hv : v ∈ h.keys)
    (x : Extended) : (h.setEdge u v x).keys = h.keys := by
  rw [setEdge, keys_setArc, keys_setArc, if_pos hu, if_pos hv]

structure Listed (h : Adjacency Extended) : Prop where
  keys : h.keys.Nodup
  rows : ∀ v row, h.get? v = some row → row.keys.Nodup

theorem Listed.setArc {h : Adjacency Extended} (hh : h.Listed) (u v : Vertex) (x : Extended) :
    (h.setArc u v x).Listed := by
  refine ⟨Mapping.nodup_keys_put hh.keys _ _, fun a row hrow => ?_⟩
  rw [Adjacency.setArc, Mapping.get?_put] at hrow
  split at hrow
  · rw [← Option.some.inj hrow]
    apply Mapping.nodup_keys_put
    cases hold : h.get? u with
    | none => simp
    | some old => exact hh.rows u old hold
  · exact hh.rows a row hrow

theorem Listed.setEdge {h : Adjacency Extended} (hh : h.Listed) (u v : Vertex) (x : Extended) :
    (h.setEdge u v x).Listed := (hh.setArc u v x).setArc v u x

theorem Listed.addEdge {h : Adjacency Extended} (hh : h.Listed) (u v : Vertex) (x : Extended) :
    (h.addEdge u v x).Listed := by
  unfold Adjacency.addEdge
  split
  · exact hh.setEdge u v _
  · exact hh.setEdge u v x

theorem Listed.mem_neighbours {h : Adjacency Extended} (hh : h.Listed) {u v : Vertex}
    {x : Extended} : (v, x) ∈ h.neighbours u ↔ h.look u v = some x := by
  unfold neighbours look
  cases hrow : h.get? u with
  | none => simp
  | some row => exact (Mapping.get?_eq_some_iff (hh.rows u row hrow)).symm

theorem Listed.nodup_neighbours {h : Adjacency Extended} (hh : h.Listed) (u : Vertex) :
    ((h.neighbours u).map (·.1)).Nodup := by
  unfold neighbours
  cases hrow : h.get? u with
  | none => simp
  | some row => exact hh.rows u row hrow

/-- A symmetric adjacency of different vertices with weights that are fractions and not negative. -/
structure Sound (h : Adjacency Extended) : Prop where
  listed : h.Listed
  symm : ∀ u v, h.look u v = h.look v u
  loopless : ∀ v, h.look v v = none
  finite : ∀ {u v x}, h.look u v = some x → ∃ q : Rat, 0 ≤ q ∧ x = .finite q
  closed : ∀ {u v x}, h.look u v = some x → u ∈ h.keys ∧ v ∈ h.keys

theorem Sound.weight_symm {h : Adjacency Extended} (hh : h.Sound) (u v : Vertex) :
    h.weight u v = h.weight v u := by
  rw [weight, weight, hh.symm u v]

theorem Sound.weight_nonneg {h : Adjacency Extended} (hh : h.Sound) (u v : Vertex) :
    0 ≤ h.weight u v := by
  unfold weight
  cases hlook : h.look u v with
  | none => exact Rat.le_refl
  | some x =>
      obtain ⟨q, hq, rfl⟩ := hh.finite hlook
      exact hq

def vertices (h : Adjacency Extended) : Finset Vertex := h.keys.toFinset

@[simp] theorem mem_vertices {h : Adjacency Extended} {v : Vertex} :
    v ∈ h.vertices ↔ v ∈ h.keys := List.mem_toFinset

theorem Sound.card_vertices {h : Adjacency Extended} (hh : h.Sound) :
    h.vertices.card = h.keys.length := List.toFinset_card_of_nodup hh.listed.keys

/-- Whatever distinguishes two vertices distinguishes two neighbours. -/
def Connected (h : Adjacency Extended) : Prop :=
  ∀ side : Vertex → Bool, (∃ a ∈ h.keys, ∃ b ∈ h.keys, side a ≠ side b) →
    ∃ a b, h.look a b ≠ none ∧ side a ≠ side b

/-! ### Merging two vertices -/

def combine : Option Extended → Option Extended → Option Extended
  | some x, some y => some (x + y)
  | some x, none => some x
  | none, y => y

@[simp] theorem combine_none (x : Option Extended) : combine x none = x := by
  cases x <;> rfl

theorem look_addEdge (h : Adjacency Extended) (u v : Vertex) (x : Extended) (a b : Vertex) :
    (h.addEdge u v x).look a b =
      if (u = a ∧ v = b) ∨ (v = a ∧ u = b) then combine (h.look u v) (some x) else h.look a b := by
  cases hlook : h.look u v with
  | none =>
      have hget : (h.get? u).bind (·.get? v) = none := hlook
      rw [addEdge, hget, look_setEdge]
      rfl
  | some old =>
      have hget : (h.get? u).bind (·.get? v) = some old := hlook
      rw [addEdge, hget, look_setEdge]
      rfl

theorem keys_addEdge {h : Adjacency Extended} {u v : Vertex} (hu : u ∈ h.keys) (hv : v ∈ h.keys)
    (x : Extended) : (h.addEdge u v x).keys = h.keys := by
  unfold addEdge
  split
  · exact keys_setEdge hu hv _
  · exact keys_setEdge hu hv x

def absorb (u : Vertex) (row : List (Vertex × Extended)) (h : Adjacency Extended) :
    Adjacency Extended :=
  row.foldl (fun h' (t, weight) => if t = u then h' else h'.addEdge u t weight) h

theorem absorb_cons (u t : Vertex) (x : Extended) (row : List (Vertex × Extended))
    (h : Adjacency Extended) :
    absorb u ((t, x) :: row) h = absorb u row (if t = u then h else h.addEdge u t x) := rfl

theorem look_absorb {u : Vertex} {row : List (Vertex × Extended)} {h : Adjacency Extended}
    (hsymm : ∀ a b, h.look a b = h.look b a) (hnodup : (row.map (·.1)).Nodup) (a b : Vertex) :
    (absorb u row h).look a b =
      if a = u ∧ b ≠ u then combine (h.look u b) ((⟨row⟩ : Mapping Vertex Extended).get? b)
      else if a ≠ u ∧ b = u then combine (h.look u a) ((⟨row⟩ : Mapping Vertex Extended).get? a)
      else h.look a b := by
  induction row generalizing h with
  | nil =>
      have hnone : ∀ k, (⟨[]⟩ : Mapping Vertex Extended).get? k = none := fun _ => rfl
      simp only [absorb, List.foldl_nil, hnone, combine_none]
      split
      · rename_i hab
        rw [hab.1]
      · split
        · rename_i hab
          rw [hsymm u a, hab.2]
        · rfl
  | cons entry row ih =>
      obtain ⟨t, x⟩ := entry
      rw [List.map_cons, List.nodup_cons] at hnodup
      have hrow : (⟨row⟩ : Mapping Vertex Extended).get? t = none :=
        Mapping.get?_eq_none_iff.mpr hnodup.1
      rw [absorb_cons]
      by_cases htu : t = u
      · -- The edge between the two merged vertices is dropped.
        rw [if_pos htu, ih hsymm hnodup.2]
        simp only [Mapping.get?_cons]
        grind
      · rw [if_neg htu]
        have hsymm' : ∀ a b, (h.addEdge u t x).look a b = (h.addEdge u t x).look b a := by
          intro a b
          rw [look_addEdge, look_addEdge, hsymm a b]
          grind
        rw [ih hsymm' hnodup.2]
        simp only [Mapping.get?_cons, look_addEdge]
        grind [combine_none]

theorem keys_absorb {u : Vertex} {row : List (Vertex × Extended)} {h : Adjacency Extended}
    (hu : u ∈ h.keys) (hrow : ∀ entry ∈ row, entry.1 ∈ h.keys) :
    (absorb u row h).keys = h.keys := by
  induction row generalizing h with
  | nil => rfl
  | cons entry row ih =>
      obtain ⟨t, x⟩ := entry
      have ht : t ∈ h.keys := hrow (t, x) List.mem_cons_self
      have hrest : ∀ entry ∈ row, entry.1 ∈ h.keys :=
        fun entry hentry => hrow entry (List.mem_cons_of_mem _ hentry)
      rw [absorb_cons]
      split
      · exact ih hu hrest
      · have hkeys := keys_addEdge hu ht x
        rw [ih (hkeys ▸ hu) (fun entry hentry => hkeys ▸ hrest entry hentry), hkeys]

theorem Listed.absorb {h : Adjacency Extended} (hh : h.Listed) (u : Vertex)
    (row : List (Vertex × Extended)) : (absorb u row h).Listed := by
  induction row generalizing h with
  | nil => exact hh
  | cons entry row ih =>
      obtain ⟨t, x⟩ := entry
      rw [absorb_cons]
      split
      · exact ih hh
      · exact ih (hh.addEdge u t x)

theorem get?_remove (h : Adjacency Extended) (v a : Vertex) :
    (h.remove v).get? a = if a = v then none else (h.get? a).map (·.erase v) := by
  obtain ⟨l⟩ := h
  show ((((l.filter fun entry => decide (entry.1 ≠ v)).map
    fun entry => (entry.1, entry.2.erase v)).find? fun e => decide (e.1 = a)).map (·.2)) =
      if a = v then none else ((l.find? fun e => decide (e.1 = a)).map (·.2)).map (·.erase v)
  induction l with
  | nil => simp
  | cons entry rest ih =>
      obtain ⟨k, row⟩ := entry
      by_cases hkv : k = v
      · subst hkv
        by_cases hak : a = k
        · subst hak
          simp
        · have hne : k ≠ a := fun heq => hak heq.symm
          simpa [hak, hne] using ih
      · by_cases hka : k = a
        · subst hka
          simp [hkv]
        · simpa [hkv, hka] using ih

theorem look_remove (h : Adjacency Extended) (v a b : Vertex) :
    (h.remove v).look a b = if a = v ∨ b = v then none else h.look a b := by
  rw [look, get?_remove]
  by_cases ha : a = v
  · simp [ha]
  · cases hrow : h.get? a with
    | none => simp [look, hrow]
    | some row => simp [look, hrow, ha, Mapping.get?_erase]

theorem keys_remove (h : Adjacency Extended) (v : Vertex) :
    (h.remove v).keys = h.keys.filter (· ≠ v) := by
  simp [remove, Mapping.keys, List.filter_map, Function.comp_def]

theorem Listed.remove {h : Adjacency Extended} (hh : h.Listed) (v : Vertex) :
    (h.remove v).Listed := by
  refine ⟨?_, fun a row hrow => ?_⟩
  · rw [keys_remove]
    exact hh.keys.filter _
  · rw [get?_remove] at hrow
    split at hrow
    · cases hrow
    · obtain ⟨old, hold, rfl⟩ := Option.map_eq_some_iff.mp hrow
      rw [Mapping.keys_erase]
      exact (hh.rows a old hold).filter _

theorem get?_neighbours (h : Adjacency Extended) (u v : Vertex) :
    (⟨h.neighbours u⟩ : Mapping Vertex Extended).get? v = h.look u v := by
  unfold neighbours look
  cases h.get? u <;> rfl

theorem contract_eq (h : Adjacency Extended) (u v : Vertex) :
    h.contract u v = (absorb u (h.neighbours v) h).remove v := rfl

theorem Sound.look_contract {h : Adjacency Extended} (hh : h.Sound) (u v a b : Vertex) :
    (h.contract u v).look a b =
      if a = v ∨ b = v then none
      else if a = u ∧ b ≠ u then combine (h.look u b) (h.look v b)
      else if a ≠ u ∧ b = u then combine (h.look u a) (h.look v a)
      else h.look a b := by
  rw [contract_eq, look_remove, look_absorb hh.symm (hh.listed.nodup_neighbours v),
    get?_neighbours, get?_neighbours]

theorem Sound.keys_contract {h : Adjacency Extended} (hh : h.Sound) {u v : Vertex}
    (hu : u ∈ h.keys) : (h.contract u v).keys = h.keys.filter (· ≠ v) := by
  rw [contract_eq, keys_remove, keys_absorb hu]
  intro entry hentry
  exact (hh.closed (hh.listed.mem_neighbours.mp hentry)).2

theorem combine_finite {x y : Option Extended} {z : Extended}
    (hx : ∀ a, x = some a → ∃ q : Rat, 0 ≤ q ∧ a = .finite q)
    (hy : ∀ a, y = some a → ∃ q : Rat, 0 ≤ q ∧ a = .finite q) (hz : combine x y = some z) :
    ∃ q : Rat, 0 ≤ q ∧ z = .finite q := by
  cases x with
  | none => exact hy z hz
  | some a =>
      obtain ⟨p, hp, rfl⟩ := hx a rfl
      cases y with
      | none => exact ⟨p, hp, (Option.some.inj hz).symm⟩
      | some b =>
          obtain ⟨q, hq, rfl⟩ := hy b rfl
          exact ⟨p + q, add_nonneg hp hq, (Option.some.inj hz).symm⟩

theorem Sound.contract {h : Adjacency Extended} (hh : h.Sound) {u v : Vertex} (hu : u ∈ h.keys) :
    (h.contract u v).Sound := by
  have hcombined : ∀ t x, combine (h.look u t) (h.look v t) = some x →
      (∃ q : Rat, 0 ≤ q ∧ x = .finite q) ∧ t ∈ h.keys := by
    intro t x hx
    refine ⟨combine_finite (fun a ha => hh.finite ha) (fun a ha => hh.finite ha) hx, ?_⟩
    cases hut : h.look u t with
    | some y => exact (hh.closed hut).2
    | none =>
        rw [hut] at hx
        exact (hh.closed hx).2
  refine ⟨(hh.listed.absorb u _).remove v, fun a b => ?_, fun a => ?_, ?_, ?_⟩
  · rw [hh.look_contract, hh.look_contract, hh.symm a b]
    grind
  · rw [hh.look_contract]
    have := hh.loopless a
    grind
  · intro a b x hx
    rw [hh.look_contract] at hx
    split at hx
    · cases hx
    · split at hx
      · exact (hcombined b x hx).1
      · split at hx
        · exact (hcombined a x hx).1
        · exact hh.finite hx
  · intro a b x hx
    rw [hh.look_contract] at hx
    rw [hh.keys_contract hu, List.mem_filter, List.mem_filter]
    split at hx
    · cases hx
    · rename_i hne
      rw [not_or] at hne
      simp only [decide_eq_true_eq]
      suffices a ∈ h.keys ∧ b ∈ h.keys from ⟨⟨this.1, hne.1⟩, ⟨this.2, hne.2⟩⟩
      split at hx
      · rename_i hab
        exact ⟨hab.1 ▸ hu, (hcombined b x hx).2⟩
      · split at hx
        · rename_i hab
          exact ⟨(hcombined a x hx).2, hab.2 ▸ hu⟩
        · exact hh.closed hx

theorem weight_eq_zero {h : Adjacency Extended} {u v : Vertex} (hlook : h.look u v = none) :
    h.weight u v = 0 := by
  rw [weight, hlook]

/-- The merged vertex has the weights of both. -/
theorem Sound.weight_contract_merged {h : Adjacency Extended} (hh : h.Sound) {u v a : Vertex}
    (hau : a ≠ u) (hav : a ≠ v) (huv : u ≠ v) :
    (h.contract u v).weight a u = h.weight a u + h.weight a v := by
  have hlook : (h.contract u v).look a u = combine (h.look a u) (h.look a v) := by
    rw [hh.look_contract, if_neg (by simp [hav, huv]), if_neg (by simp [hau]),
      if_pos ⟨hau, rfl⟩, hh.symm u a, hh.symm v a]
  simp only [weight, hlook]
  cases hx : h.look a u with
  | none => cases hy : h.look a v <;> simp [combine]
  | some x =>
      obtain ⟨p, -, rfl⟩ := hh.finite hx
      cases hy : h.look a v with
      | none => simp [combine]
      | some y =>
          obtain ⟨q, -, rfl⟩ := hh.finite hy
          simp [combine]

theorem Sound.weight_contract_other {h : Adjacency Extended} (hh : h.Sound) {u v a b : Vertex}
    (hau : a ≠ u) (hav : a ≠ v) (hbu : b ≠ u) (hbv : b ≠ v) :
    (h.contract u v).weight a b = h.weight a b := by
  have hlook : (h.contract u v).look a b = h.look a b := by
    rw [hh.look_contract, if_neg (by simp [hav, hbv]), if_neg (by simp [hau]),
      if_neg (by simp [hbu])]
  rw [weight, weight, hlook]

theorem Sound.vertices_contract {h : Adjacency Extended} (hh : h.Sound) {u v : Vertex}
    (hu : u ∈ h.keys) : (h.contract u v).vertices = h.vertices.erase v := by
  ext a
  rw [mem_vertices, hh.keys_contract hu, List.mem_filter, Finset.mem_erase, mem_vertices]
  simp [and_comm]

/-- A cut that does not separate two merged vertices keeps its weight. -/
theorem Sound.crossingIn_contract {h : Adjacency Extended} (hh : h.Sound) {u v : Vertex}
    (hu : u ∈ h.keys) (hv : v ∈ h.keys) (huv : u ≠ v) {side : Vertex → Bool}
    (hside : side u = side v) :
    crossingIn (h.contract u v).weight side (h.contract u v).vertices =
      crossingIn h.weight side h.vertices := by
  rw [hh.vertices_contract hu]
  exact MinCut.crossingIn_contract hh.weight_symm (hh.contract hu).weight_symm
    (mem_vertices.mpr hu) (mem_vertices.mpr hv) huv
    (fun a _ hau hav => hh.weight_contract_merged hau hav huv)
    (fun a _ b _ hau hav hbu hbv => hh.weight_contract_other hau hav hbu hbv) hside

def merge (u v a : Vertex) : Vertex := if a = v then u else a

theorem combine_ne_none {x y : Option Extended} : combine x y ≠ none ↔ x ≠ none ∨ y ≠ none := by
  cases x <;> cases y <;> simp [combine]

/-- Neighbours that are not merged into one stay neighbours. -/
theorem Sound.look_contract_merge {h : Adjacency Extended} (hh : h.Sound) {u v a b : Vertex}
    (huv : u ≠ v) (hab : h.look a b ≠ none) (hne : merge u v a ≠ merge u v b) :
    (h.contract u v).look (merge u v a) (merge u v b) ≠ none := by
  have hba : h.look b a ≠ none := by rwa [hh.symm b a]
  have hmerged : ∀ x, merge u v x ≠ v := by
    intro x
    unfold merge
    split <;> assumption
  rw [hh.look_contract, if_neg (by simp [hmerged])]
  split
  · rename_i hcase
    have hb : merge u v b = b := by
      unfold merge at hcase ⊢
      grind
    rw [combine_ne_none, hb]
    unfold merge at hcase
    by_cases hav : a = v
    · exact Or.inr (hav ▸ hab)
    · rw [if_neg hav] at hcase
      exact Or.inl (hcase.1 ▸ hab)
  · split
    · rename_i hcase
      have ha : merge u v a = a := by
        unfold merge at hcase ⊢
        grind
      rw [combine_ne_none, ha]
      unfold merge at hcase
      by_cases hbv : b = v
      · exact Or.inr (hbv ▸ hba)
      · rw [if_neg hbv] at hcase
        exact Or.inl (hcase.2 ▸ hba)
    · unfold merge at *
      grind

theorem Connected.contract {h : Adjacency Extended} (hc : h.Connected) (hh : h.Sound)
    {u v : Vertex} (hu : u ∈ h.keys) (huv : u ≠ v) : (h.contract u v).Connected := by
  rintro side ⟨a, ha, b, hb, hab⟩
  rw [hh.keys_contract hu, List.mem_filter] at ha hb
  simp only [decide_eq_true_eq] at ha hb
  -- A side on the merged graph is one on the whole graph that does not separate the two vertices.
  obtain ⟨c, d, hcd, hside⟩ := hc (fun x => side (merge u v x)) ⟨a, ha.1, b, hb.1, by
    simpa [merge, ha.2, hb.2] using hab⟩
  exact ⟨merge u v c, merge u v d,
    hh.look_contract_merge huv hcd (fun heq => hside (congrArg side heq)), hside⟩

/-! ### The adjacency of links -/

theorem look_addVertex (h : Adjacency Extended) (v a b : Vertex) :
    (h.addVertex v).look a b = h.look a b := by
  unfold addVertex
  split
  · rfl
  · rename_i hv
    rw [look, Mapping.get?_put]
    split
    · rename_i hva
      have hnone : h.get? a = none := by
        rw [Mapping.get?_eq_none_iff, ← hva]
        simpa [Mapping.contains, Mapping.keys] using hv
      simp [look, hnone]
    · rfl

theorem keys_addVertex {h : Adjacency Extended} {v a : Vertex} :
    a ∈ (h.addVertex v).keys ↔ a ∈ h.keys ∨ a = v := by
  unfold addVertex
  split
  · rename_i hv
    have hmem : v ∈ h.keys := by
      simp only [Mapping.contains, List.any_eq_true, decide_eq_true_eq] at hv
      obtain ⟨e, he, rfl⟩ := hv
      exact List.mem_map_of_mem he
    exact ⟨Or.inl, fun ha => ha.elim id fun heq => heq ▸ hmem⟩
  · rw [Mapping.keys_put]
    split
    · rename_i hmem
      exact ⟨Or.inl, fun ha => ha.elim id fun heq => heq ▸ hmem⟩
    · simp

theorem Listed.addVertex {h : Adjacency Extended} (hh : h.Listed) (v : Vertex) :
    (h.addVertex v).Listed := by
  unfold Adjacency.addVertex
  split
  · exact hh
  · refine ⟨Mapping.nodup_keys_put hh.keys _ _, fun a row hrow => ?_⟩
    rw [Mapping.get?_put] at hrow
    split at hrow
    · rw [← Option.some.inj hrow]
      simp
    · exact hh.rows a row hrow

def enter (h : Adjacency Extended) (link : Link Extended) : Adjacency Extended :=
  ((h.addVertex link.tail).addVertex link.head).setEdge link.tail link.head link.weight

theorem ofLinks_eq (links : List (Link Extended)) :
    ofLinks links = links.foldl enter Mapping.empty := rfl

theorem look_enter (h : Adjacency Extended) (link : Link Extended) (a b : Vertex) :
    (h.enter link).look a b = if link.joins a b = true then some link.weight else h.look a b := by
  rw [enter, look_setEdge, look_addVertex, look_addVertex]
  congr 1
  simp only [Link.joins, Bool.or_eq_true, Bool.and_eq_true, beq_iff_eq, eq_iff_iff]
  exact or_congr_right and_comm

theorem keys_enter {h : Adjacency Extended} {link : Link Extended} {a : Vertex} :
    a ∈ (h.enter link).keys ↔ a ∈ h.keys ∨ a = link.tail ∨ a = link.head := by
  rw [enter, keys_setEdge (by simp [keys_addVertex]) (by simp [keys_addVertex]), keys_addVertex,
    keys_addVertex, or_assoc]

theorem Listed.enter {h : Adjacency Extended} (hh : h.Listed) (link : Link Extended) :
    (h.enter link).Listed := ((hh.addVertex _).addVertex _).setEdge _ _ _

theorem Listed.foldl_enter {h : Adjacency Extended} (hh : h.Listed)
    (links : List (Link Extended)) : (links.foldl Adjacency.enter h).Listed := by
  induction links generalizing h with
  | nil => exact hh
  | cons link rest ih => exact ih (hh.enter link)

theorem mem_keys_ofLinks {links : List (Link Extended)} {a : Vertex} :
    a ∈ (ofLinks links).keys ↔ ∃ link ∈ links, a = link.tail ∨ a = link.head := by
  have hfold : ∀ h : Adjacency Extended, a ∈ (links.foldl enter h).keys ↔
      a ∈ h.keys ∨ ∃ link ∈ links, a = link.tail ∨ a = link.head := by
    induction links with
    | nil => simp
    | cons link rest ih =>
        intro h
        rw [List.foldl_cons, ih, keys_enter, or_assoc]
        simp
  rw [ofLinks_eq, hfold]
  simp

/-- The only link between two vertices gives their weight. -/
theorem look_ofLinks {links : List (Link Extended)} (hsimple : Link.Simple links)
    {a b : Vertex} {x : Extended} :
    (ofLinks links).look a b = some x ↔
      ∃ link ∈ links, link.joins a b = true ∧ link.weight = x := by
  have hfold : ∀ h : Adjacency Extended, (links.foldl enter h).look a b = some x ↔
      (∃ link ∈ links, link.joins a b = true ∧ link.weight = x) ∨
        ((∀ link ∈ links, link.joins a b ≠ true) ∧ h.look a b = some x) := by
    induction links with
    | nil => simp
    | cons link rest ih =>
        intro h
        obtain ⟨hfirst, hsingle⟩ := List.pairwise_cons.mp hsimple.single
        have hrest : Link.Simple rest :=
          ⟨fun l hl => hsimple.loopless l (List.mem_cons_of_mem _ hl), hsingle⟩
        rw [List.foldl_cons, ih hrest, look_enter]
        by_cases hlink : link.joins a b = true
        · have hnone : ∀ l ∈ rest, l.joins a b ≠ true := fun l hl hjoins =>
            hfirst l hl (Link.samePair_of_joins hlink hjoins)
          simp only [hlink, if_true, List.mem_cons, exists_eq_or_imp, true_and]
          grind
        · simp only [hlink, Bool.false_eq_true, if_false, List.mem_cons, exists_eq_or_imp,
            false_and, false_or, forall_eq_or_imp]
          simp
  rw [ofLinks_eq, hfold]
  simp [look]

theorem sound_ofLinks {links : List (Link Extended)} (hsimple : Link.Simple links)
    (hweighted : Link.Weighted links) : (ofLinks links).Sound := by
  have hlisted : (ofLinks links).Listed := by
    rw [ofLinks_eq]
    exact Listed.foldl_enter ⟨by simp, by simp⟩ links
  refine ⟨hlisted, fun a b => ?_, fun a => ?_, ?_, ?_⟩
  · ext x
    rw [look_ofLinks hsimple, look_ofLinks hsimple]
    simp only [Link.joins_comm]
  · rw [Option.eq_none_iff_forall_ne_some]
    intro x hx
    obtain ⟨link, hlink, hjoins, -⟩ := (look_ofLinks hsimple).mp hx
    apply hsimple.loopless link hlink
    rcases Link.joins_iff.mp hjoins with heq | heq <;> obtain ⟨h₁, h₂⟩ := Prod.mk.inj heq <;>
      exact h₁.trans h₂.symm
  · intro a b x hx
    obtain ⟨link, hlink, -, rfl⟩ := (look_ofLinks hsimple).mp hx
    exact hweighted link hlink
  · intro a b x hx
    obtain ⟨link, hlink, hjoins, -⟩ := (look_ofLinks hsimple).mp hx
    rw [mem_keys_ofLinks, mem_keys_ofLinks]
    rcases Link.joins_iff.mp hjoins with heq | heq <;> obtain ⟨h₁, h₂⟩ := Prod.mk.inj heq
    · exact ⟨⟨link, hlink, Or.inl h₁.symm⟩, ⟨link, hlink, Or.inr h₂.symm⟩⟩
    · exact ⟨⟨link, hlink, Or.inr h₂.symm⟩, ⟨link, hlink, Or.inl h₁.symm⟩⟩

/-- The weight between two vertices is the sum over the links that join them. -/
theorem weight_ofLinks {links : List (Link Extended)} (hsimple : Link.Simple links)
    (a b : Vertex) :
    (ofLinks links).weight a b =
      (links.map fun link => if link.joins a b then link.weight.toRat else 0).sum := by
  have hnone : ∀ ls : List (Link Extended), (∀ link ∈ ls, link.joins a b ≠ true) →
      (ls.map fun link => if link.joins a b then link.weight.toRat else 0).sum = 0 := by
    intro ls hls
    apply List.sum_eq_zero
    intro x hx
    obtain ⟨link, hlink, rfl⟩ := List.mem_map.mp hx
    exact if_neg (hls link hlink)
  have hone : ∀ ls : List (Link Extended), Link.Simple ls → ∀ link ∈ ls, link.joins a b = true →
      (ls.map fun link => if link.joins a b then link.weight.toRat else 0).sum =
        link.weight.toRat := by
    intro ls
    induction ls with
    | nil =>
        intro _ link hlink
        cases hlink
    | cons first rest ih =>
        intro hls link hlink hjoins
        obtain ⟨hfirst, hsingle⟩ := List.pairwise_cons.mp hls.single
        rw [List.map_cons, List.sum_cons]
        rcases List.mem_cons.mp hlink with rfl | hrest
        · have hlast := hnone rest fun l hl hl' =>
            hfirst l hl (Link.samePair_of_joins hjoins hl')
          rw [if_pos hjoins, hlast, add_zero]
        · have hoff : ¬first.joins a b = true := fun h =>
            hfirst link hrest (Link.samePair_of_joins h hjoins)
          rw [if_neg hoff, zero_add]
          exact ih ⟨fun l hl => hls.loopless l (List.mem_cons_of_mem _ hl), hsingle⟩ link hrest
            hjoins
  cases hlook : (ofLinks links).look a b with
  | none =>
      rw [weight_eq_zero hlook, hnone]
      intro link hlink hjoins
      rw [(look_ofLinks hsimple).mpr ⟨link, hlink, hjoins, rfl⟩] at hlook
      cases hlook
  | some x =>
      obtain ⟨link, hlink, hjoins, rfl⟩ := (look_ofLinks hsimple).mp hlook
      rw [weight, hlook, hone links hsimple link hlink hjoins]

/-- One link crosses where its ends lie on different sides. -/
theorem sum_joins {link : Link Extended} (hne : link.tail ≠ link.head) {U : Finset Vertex}
    (htail : link.tail ∈ U) (hhead : link.head ∈ U) (side : Vertex → Bool) :
    (∑ a ∈ U, ∑ b ∈ U, if side a = true ∧ side b = false then
      (if link.joins a b then link.weight.toRat else 0) else 0) =
        if link.splits side then link.weight.toRat else 0 := by
  have hrow : ∀ a ∈ U, (∑ b ∈ U, if side a = true ∧ side b = false then
      (if link.joins a b then link.weight.toRat else 0) else 0) =
        (if a = link.tail then
          (if side link.tail = true ∧ side link.head = false then link.weight.toRat else 0)
          else 0) +
        (if a = link.head then
          (if side link.head = true ∧ side link.tail = false then link.weight.toRat else 0)
          else 0) := by
    intro a ha
    by_cases hat : a = link.tail
    · subst hat
      rw [Finset.sum_eq_single_of_mem link.head hhead]
      · simp [Link.joins, hne]
      · intro b _ hb
        have hb' : link.head ≠ b := fun heq => hb heq.symm
        simp [Link.joins, hb', hne.symm]
    · by_cases hah : a = link.head
      · subst hah
        rw [Finset.sum_eq_single_of_mem link.tail htail]
        · simp [Link.joins, hne.symm]
        · intro b _ hb
          have hb' : link.tail ≠ b := fun heq => hb heq.symm
          simp [Link.joins, hb', hne]
      · have hat' : link.tail ≠ a := fun heq => hat heq.symm
        have hah' : link.head ≠ a := fun heq => hah heq.symm
        simp [Link.joins, hat, hah, hat', hah']
  rw [Finset.sum_congr rfl hrow, Finset.sum_add_distrib, Finset.sum_ite_eq' U, if_pos htail,
    Finset.sum_ite_eq' U, if_pos hhead]
  cases ht : side link.tail <;> cases hh : side link.head <;> simp [Link.splits, ht, hh]

/-- What crosses between the vertices is what the links carry across. -/
theorem crossingIn_ofLinks {links : List (Link Extended)} (hsimple : Link.Simple links)
    (side : Vertex → Bool) :
    crossingIn (ofLinks links).weight side (ofLinks links).vertices =
      Link.crossing links side := by
  have hends : ∀ link ∈ links, link.tail ∈ (ofLinks links).vertices ∧
      link.head ∈ (ofLinks links).vertices := fun link hlink => by
    rw [mem_vertices, mem_vertices, mem_keys_ofLinks, mem_keys_ofLinks]
    exact ⟨⟨link, hlink, Or.inl rfl⟩, ⟨link, hlink, Or.inr rfl⟩⟩
  generalize hU : (ofLinks links).vertices = U at hends
  unfold crossingIn Link.crossing
  simp only [weight_ofLinks hsimple]
  have hloopless := hsimple.loopless
  clear hsimple hU
  induction links with
  | nil => simp
  | cons link rest ih =>
      obtain ⟨htail, hhead⟩ := hends link List.mem_cons_self
      rw [List.map_cons, List.sum_cons, ← sum_joins (hloopless link List.mem_cons_self) htail hhead
        side, ← ih (fun l hl => hends l (List.mem_cons_of_mem _ hl))
          (fun l hl => hloopless l (List.mem_cons_of_mem _ hl)), ← Finset.sum_add_distrib]
      apply Finset.sum_congr rfl
      intro a _
      rw [← Finset.sum_add_distrib]
      apply Finset.sum_congr rfl
      intro b _
      rw [List.map_cons, List.sum_cons]
      split <;> simp

end Adjacency

end TourSearch.MinCut
