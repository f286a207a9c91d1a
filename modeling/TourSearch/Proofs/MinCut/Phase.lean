import TourSearch.Proofs.MinCut.Adjacency
import Mathlib

/-!
One phase of the contraction. The vertices outside carry the negated weights by which they are
attached to the vertices added so far (`Outside.Tracks`), so that the next vertex is one of greatest
attachment. With the last two vertices of a phase comes a cut: the weight around the last vertex,
and no cut that separates the two is lighter (`phase?_spec`).
-/

namespace TourSearch.MinCut

open Numeric

/-! ### The vertices outside -/

namespace Loose

theorem first?_eq_none_iff {l : List (Loose Extended)} : first? l = none ↔ l = [] := by
  cases l with
  | nil => simp [first?]
  | cons a rest =>
      cases hrest : first? rest with
      | none => simp [first?, hrest]
      | some b =>
          simp only [first?, hrest, reduceCtorEq, iff_false]
          split <;> simp

theorem mem_of_first? {l : List (Loose Extended)} {e : Loose Extended} (h : first? l = some e) :
    e ∈ l := by
  induction l generalizing e with
  | nil => simp [first?] at h
  | cons a rest ih =>
      rw [first?] at h
      split at h
      · rw [← Option.some.inj h]
        exact List.mem_cons_self
      · rename_i b hb
        split at h
        · rw [← Option.some.inj h]
          exact List.mem_cons_of_mem a (ih hb)
        · rw [← Option.some.inj h]
          exact List.mem_cons_self

theorem slack_le_of_precedes {a b : Loose Extended} {x y : Rat} (ha : a.slack = .finite x)
    (hb : b.slack = .finite y) : (a.precedes b = true → x ≤ y) ∧
    (a.precedes b = false → y ≤ x) := by
  have hbeq : ((Extended.finite x == Extended.finite y) = true) ↔ x = y := by
    show decide (Extended.Same (.finite x) (.finite y)) = true ↔ x = y
    exact decide_eq_true_iff
  unfold precedes
  rw [ha, hb]
  by_cases hxy : x = y
  · exact ⟨fun _ => hxy.le, fun _ => hxy.ge⟩
  · rw [if_neg (fun h => hxy (hbeq.mp h))]
    constructor
    · intro h
      exact (Extended.finite_lt_finite.mp (of_decide_eq_true h)).le
    · intro h
      exact not_lt.mp (fun hlt => of_decide_eq_false h (Extended.finite_lt_finite.mpr hlt))

theorem slack_first?_le {l : List (Loose Extended)} {e : Loose Extended} {x : Rat}
    (hfinite : ∀ a ∈ l, ∃ y : Rat, a.slack = .finite y) (h : first? l = some e)
    (hx : e.slack = .finite x) {a : Loose Extended} {y : Rat} (ha : a ∈ l)
    (hy : a.slack = .finite y) : x ≤ y := by
  induction l generalizing e x a y with
  | nil => cases ha
  | cons c rest ih =>
      have hrestFinite := fun a ha => hfinite a (List.mem_cons_of_mem c ha)
      rw [first?] at h
      split at h
      · rename_i hnone
        rw [← Option.some.inj h] at hx
        rw [first?_eq_none_iff.mp hnone, List.mem_singleton] at ha
        rw [ha, hx] at hy
        exact (Extended.finite.inj hy).le
      · rename_i b hb
        obtain ⟨z, hz⟩ := hrestFinite b (mem_of_first? hb)
        obtain ⟨k, hk⟩ := hfinite c List.mem_cons_self
        have hprec := slack_le_of_precedes hz hk
        have hz_le : a ∈ rest → z ≤ y := fun ha => ih hrestFinite hb hz ha hy
        have hk_le : a = c → k ≤ y := by
          intro heq
          rw [heq, hk] at hy
          exact (Extended.finite.inj hy).le
        split at h
        · rename_i hbc
          rw [← Option.some.inj h, hz] at hx
          rw [← Extended.finite.inj hx]
          rcases List.mem_cons.mp ha with hac | har
          · exact (hprec.1 hbc).trans (hk_le hac)
          · exact hz_le har
        · rename_i hbc
          rw [← Option.some.inj h, hk] at hx
          rw [← Extended.finite.inj hx]
          rcases List.mem_cons.mp ha with hac | har
          · exact hk_le hac
          · exact (hprec.2 (Bool.eq_false_iff.mpr hbc)).trans (hz_le har)

end Loose

namespace Outside

def recorded (o : Outside Extended) (v : Vertex) : Option Extended :=
  (o.entries.find? (·.vertex == v)).map (·.slack)

/-- Every vertex has one entry at most, and the slacks are the given weights, negated. -/
structure Tracks (o : Outside Extended) (q : Vertex → Option Rat) : Prop where
  nodup : (o.entries.map (·.vertex)).Nodup
  slack : ∀ v, o.recorded v = (q v).map fun x => .finite (-x)

theorem tracks_empty : (empty : Outside Extended).Tracks fun _ => none :=
  ⟨by simp [empty], fun v => by simp [recorded, empty]⟩

theorem recorded_eq_some_iff {o : Outside Extended} (hnodup : (o.entries.map (·.vertex)).Nodup)
    {v : Vertex} {x : Extended} :
    o.recorded v = some x ↔ ∃ e ∈ o.entries, e.vertex = v ∧ e.slack = x := by
  obtain ⟨l, clock⟩ := o
  show ((l.find? (·.vertex == v)).map (·.slack) = some x) ↔ ∃ e ∈ l, e.vertex = v ∧ e.slack = x
  change (l.map (·.vertex)).Nodup at hnodup
  induction l with
  | nil => simp
  | cons a rest ih =>
      rw [List.map_cons, List.nodup_cons] at hnodup
      by_cases hav : a.vertex = v
      · have hrest : ∀ e ∈ rest, e.vertex ≠ v := fun e he heq =>
          hnodup.1 (hav ▸ heq ▸ List.mem_map_of_mem he)
        rw [List.find?_cons_of_pos (by simp [hav])]
        simp only [Option.map_some, Option.some.injEq, List.mem_cons, exists_eq_or_imp, hav,
          true_and]
        exact ⟨Or.inl, fun h => h.elim id fun ⟨e, he, heq, _⟩ => absurd heq (hrest e he)⟩
      · rw [List.find?_cons_of_neg (by simp [hav]), ih hnodup.2]
        simp [hav]

theorem recorded_eq_none_iff {o : Outside Extended} {v : Vertex} :
    o.recorded v = none ↔ ∀ e ∈ o.entries, e.vertex ≠ v := by
  simp [recorded]

theorem slack_eq (o : Outside Extended) (v : Vertex) :
    o.slack v = (o.recorded v).getD (.finite 0) := by
  unfold slack recorded
  cases o.entries.find? (·.vertex == v) <;> rfl

theorem Tracks.slack_eq {o : Outside Extended} {q : Vertex → Option Rat} (h : o.Tracks q)
    (v : Vertex) : o.slack v = .finite (-(q v).getD 0) := by
  rw [Outside.slack_eq, h.slack]
  cases q v <;> simp

/-- A vertex without an entry gets one at the end. -/
theorem Tracks.append {o : Outside Extended} {q : Vertex → Option Rat} (h : o.Tracks q) {v : Vertex}
    (hv : q v = none) (x : Rat) (time clock : Nat) :
    (⟨o.entries ++ [⟨v, .finite (-x), time⟩], clock⟩ : Outside Extended).Tracks
      (Function.update q v (some x)) := by
  have hnone : o.recorded v = none := by rw [h.slack, hv]; rfl
  have hfresh := recorded_eq_none_iff.mp hnone
  refine ⟨?_, fun a => ?_⟩
  · rw [List.map_append, List.nodup_append]
    refine ⟨h.nodup, by simp, ?_⟩
    intro a ha b hb
    obtain ⟨e, he, rfl⟩ := List.mem_map.mp ha
    rw [List.map_singleton, List.mem_singleton] at hb
    rw [hb]
    exact hfresh e he
  · by_cases hav : a = v
    · subst hav
      rw [recorded, Option.map_eq_none_iff] at hnone
      simp [recorded, hnone]
    · have hva : v ≠ a := fun heq => hav heq.symm
      rw [Function.update_of_ne hav, ← h.slack a]
      simp [recorded, hva]

theorem Tracks.replace {o : Outside Extended} {q : Vertex → Option Rat} (h : o.Tracks q)
    {v : Vertex} (hv : q v ≠ none) (x : Rat) (time clock : Nat) :
    (⟨o.entries.map fun e => if e.vertex == v then ⟨v, .finite (-x), time⟩ else e, clock⟩ :
      Outside Extended).Tracks (Function.update q v (some x)) := by
  have hvertices : (o.entries.map fun e =>
      if e.vertex == v then (⟨v, .finite (-x), time⟩ : Loose Extended) else e).map (·.vertex) =
        o.entries.map (·.vertex) := by
    rw [List.map_map]
    apply List.map_congr_left
    intro e _
    by_cases he : e.vertex = v <;> simp [he]
  have hnodup := hvertices.symm ▸ h.nodup
  refine ⟨hnodup, fun a => ?_⟩
  ext z
  rw [recorded_eq_some_iff hnodup]
  simp only [List.mem_map]
  by_cases hav : a = v
  · subst hav
    rw [Function.update_self, Option.map_some, Option.some.injEq]
    constructor
    · rintro ⟨e, ⟨f, -, rfl⟩, he, rfl⟩
      by_cases hf : f.vertex = a
      · simp [hf]
      · simp [hf] at he
    · rintro rfl
      obtain ⟨y, hy⟩ := Option.ne_none_iff_exists'.mp hv
      have hrecorded : o.recorded a = some (.finite (-y)) := by rw [h.slack, hy]; rfl
      obtain ⟨e, he, hvertex, -⟩ := (recorded_eq_some_iff h.nodup).mp hrecorded
      exact ⟨_, ⟨e, he, rfl⟩, by simp [hvertex], by simp [hvertex]⟩
  · rw [Function.update_of_ne hav, ← h.slack a, recorded_eq_some_iff h.nodup]
    constructor
    · rintro ⟨e, ⟨f, hf, rfl⟩, he, rfl⟩
      by_cases hfv : f.vertex = v
      · simp only [hfv, beq_self_eq_true, if_true] at he
        exact absurd he.symm hav
      · simp only [hfv, beq_iff_eq, if_false] at he ⊢
        exact ⟨f, hf, he, rfl⟩
    · rintro ⟨e, he, rfl, rfl⟩
      exact ⟨e, ⟨e, he, by simp [hav]⟩, rfl, rfl⟩

/-- Lowering a slack adds to a weight. When nothing is added, an entry that is there stays. -/
theorem Tracks.lower {o : Outside Extended} {q : Vertex → Option Rat} (h : o.Tracks q) (v : Vertex)
    {x : Rat} (hx : 0 ≤ x) :
    (o.lower v (o.slack v - .finite x)).Tracks
      (Function.update q v (some ((q v).getD 0 + x))) := by
  have hvalue : o.slack v - .finite x = .finite (-((q v).getD 0 + x)) := by
    rw [h.slack_eq, Extended.finite_sub_finite]
    congr 1
    ring
  have hrecorded := h.slack v
  rw [hvalue]
  cases hfind : o.entries.find? (·.vertex == v) with
  | none =>
      have hv : q v = none := by
        rw [recorded, hfind] at hrecorded
        exact Option.map_eq_none_iff.mp hrecorded.symm
      simp only [Outside.lower, hfind]
      exact h.append hv _ _ _
  | some entry =>
      rw [recorded, hfind] at hrecorded
      obtain ⟨y, hy, hslack⟩ := Option.map_eq_some_iff.mp hrecorded.symm
      simp only [Outside.lower, hfind, hy, ← hslack, Option.getD_some, Extended.finite_lt_finite]
      split
      · exact h.replace (by simp [hy]) _ _ _
      · have hzero : x = 0 := by linarith
        rw [hzero, add_zero, ← hy, Function.update_eq_self]
        exact h

theorem Tracks.remove {o : Outside Extended} {q : Vertex → Option Rat} (h : o.Tracks q)
    (v : Vertex) : (o.remove v).Tracks (Function.update q v none) := by
  have hnodup : ((o.remove v).entries.map (·.vertex)).Nodup :=
    h.nodup.sublist (List.filter_sublist.map _)
  refine ⟨hnodup, fun a => ?_⟩
  by_cases hav : a = v
  · subst hav
    rw [Function.update_self, Option.map_none, recorded_eq_none_iff]
    intro e he
    simpa using (List.mem_filter.mp he).2
  · rw [Function.update_of_ne hav, ← h.slack a]
    ext z
    rw [recorded_eq_some_iff hnodup, recorded_eq_some_iff h.nodup]
    constructor
    · rintro ⟨e, he, hz⟩
      exact ⟨e, (List.mem_filter.mp he).1, hz⟩
    · rintro ⟨e, he, rfl, hz⟩
      exact ⟨e, List.mem_filter.mpr ⟨he, by simpa using hav⟩, rfl, hz⟩

theorem Tracks.mem_entries {o : Outside Extended} {q : Vertex → Option Rat} (h : o.Tracks q)
    {e : Loose Extended} (he : e ∈ o.entries) :
    ∃ x, q e.vertex = some x ∧ e.slack = .finite (-x) := by
  have hrecorded := (recorded_eq_some_iff h.nodup).mpr ⟨e, he, rfl, rfl⟩
  rw [h.slack] at hrecorded
  obtain ⟨x, hx, hslack⟩ := Option.map_eq_some_iff.mp hrecorded
  exact ⟨x, hx, hslack.symm⟩

theorem Tracks.exists_entry {o : Outside Extended} {q : Vertex → Option Rat} (h : o.Tracks q)
    {v : Vertex} {x : Rat} (hx : q v = some x) :
    ∃ e ∈ o.entries, e.vertex = v ∧ e.slack = .finite (-x) := by
  rw [← recorded_eq_some_iff h.nodup, h.slack, hx]
  rfl

/-- The entry that comes first has the greatest weight. -/
theorem Tracks.first? {o : Outside Extended} {q : Vertex → Option Rat} (h : o.Tracks q)
    {e : Loose Extended} (he : Loose.first? o.entries = some e) :
    ∃ x, q e.vertex = some x ∧ e.slack = .finite (-x) ∧ ∀ v y, q v = some y → y ≤ x := by
  obtain ⟨x, hx, hslack⟩ := h.mem_entries (Loose.mem_of_first? he)
  refine ⟨x, hx, hslack, fun v y hy => ?_⟩
  obtain ⟨f, hf, -, hfslack⟩ := h.exists_entry hy
  have hfinite : ∀ a ∈ o.entries, ∃ z : Rat, a.slack = .finite z := fun a ha =>
    (h.mem_entries ha).elim fun z hz => ⟨-z, hz.2⟩
  exact neg_le_neg_iff.mp (Loose.slack_first?_le hfinite he hslack hf hfslack)

def raised (added : List Vertex) (row : List (Vertex × Extended)) (q : Vertex → Option Rat)
    (v : Vertex) : Option Rat :=
  if v ∈ added then q v
  else
    match (⟨row⟩ : Mapping Vertex Extended).get? v with
    | some x => some ((q v).getD 0 + x.toRat)
    | none => q v

theorem raised_cons {added : List Vertex} {t : Vertex} {x : Extended}
    {row : List (Vertex × Extended)} (ht : t ∉ row.map (·.1)) (q : Vertex → Option Rat) :
    raised added ((t, x) :: row) q =
      raised added row
        (if t ∈ added then q else Function.update q t (some ((q t).getD 0 + x.toRat))) := by
  have hrow : (⟨row⟩ : Mapping Vertex Extended).get? t = none := Mapping.get?_eq_none_iff.mpr ht
  funext v
  by_cases htv : t = v
  · subst htv
    by_cases hadded : t ∈ added <;> simp [raised, Mapping.get?_cons, hadded, hrow]
  · have hvt : v ≠ t := fun heq => htv heq.symm
    by_cases hadded : t ∈ added <;> simp [raised, Mapping.get?_cons, hadded, htv, hvt]

theorem Tracks.foldl_lower {o : Outside Extended} {q : Vertex → Option Rat} (h : o.Tracks q)
    (added : List Vertex) {row : List (Vertex × Extended)} (hnodup : (row.map (·.1)).Nodup)
    (hrow : ∀ entry ∈ row, ∃ x : Rat, 0 ≤ x ∧ entry.2 = .finite x) :
    (row.foldl (fun (o : Outside Extended) (v, weight) =>
      if v ∈ added then o else o.lower v (o.slack v - weight)) o).Tracks (raised added row q) := by
  induction row generalizing o q with
  | nil =>
      have hnone : raised added [] q = q := by
        funext v
        simp [raised, Mapping.get?]
      rw [hnone]
      exact h
  | cons entry row ih =>
      obtain ⟨t, y⟩ := entry
      obtain ⟨x, hx, rfl⟩ := hrow _ List.mem_cons_self
      rw [List.map_cons, List.nodup_cons] at hnodup
      have hrest := fun e he => hrow e (List.mem_cons_of_mem _ he)
      rw [List.foldl_cons, raised_cons hnodup.1]
      by_cases ht : t ∈ added
      · simp only [ht, if_true]
        exact ih h hnodup.2 hrest
      · simp only [ht, if_false]
        exact ih (h.lower t hx) hnodup.2 hrest

/-- A row of vertices without entries is entered in the same way when they start from zero. -/
theorem foldl_lower_fresh {o : Outside Extended} {row : List (Vertex × Extended)}
    (hnodup : (row.map (·.1)).Nodup) (hfresh : ∀ v ∈ row.map (·.1), o.recorded v = none) :
    row.foldl (fun (o : Outside Extended) (v, weight) => o.lower v (Scalar.zero - weight)) o =
      row.foldl (fun (o : Outside Extended) (v, weight) =>
        if v ∈ ([] : List Vertex) then o else o.lower v (o.slack v - weight)) o := by
  induction row generalizing o with
  | nil => rfl
  | cons entry row ih =>
      obtain ⟨t, x⟩ := entry
      rw [List.map_cons, List.nodup_cons] at hnodup
      have hnone : o.recorded t = none := hfresh t List.mem_cons_self
      have hslack : o.slack t = Scalar.zero := by
        rw [slack_eq, hnone]
        rfl
      have hfind : o.entries.find? (·.vertex == t) = none := Option.map_eq_none_iff.mp hnone
      rw [List.foldl_cons, List.foldl_cons]
      simp only [List.not_mem_nil, if_false, hslack]
      apply ih hnodup.2
      intro v hv
      have hvt : t ≠ v := fun heq => hnodup.1 (heq ▸ hv)
      have hold := hfresh v (List.mem_cons_of_mem _ hv)
      rw [recorded_eq_none_iff] at hold ⊢
      simp only [lower, hfind, List.mem_append, List.mem_singleton]
      rintro e (he | rfl)
      · exact hold e he
      · exact hvt

end Outside

/-! ### Adding vertices -/

namespace Adjacency

def outsideOf (h : Adjacency Extended) (A : Finset Vertex) (v : Vertex) : Option Rat :=
  if v ∉ A ∧ ∃ a ∈ A, h.look a v ≠ none then some (attachment h.weight A v) else none

theorem attachment_eq_zero {h : Adjacency Extended} {A : Finset Vertex} {v : Vertex}
    (hnone : ∀ a ∈ A, h.look a v = none) : attachment h.weight A v = 0 :=
  Finset.sum_eq_zero fun a ha => weight_eq_zero (hnone a ha)

theorem outsideOf_getD {h : Adjacency Extended} {A : Finset Vertex} {v : Vertex} (hv : v ∉ A) :
    (h.outsideOf A v).getD 0 = attachment h.weight A v := by
  unfold outsideOf
  split
  · rfl
  · rename_i hnone
    rw [attachment_eq_zero]
    · rfl
    · intro a ha
      by_contra hne
      exact hnone ⟨hv, a, ha, hne⟩

/-- The attachments after one more vertex was added. -/
theorem outsideOf_insert {h : Adjacency Extended} {A : Finset Vertex} {u : Vertex} (hu : u ∉ A)
    (v : Vertex) :
    h.outsideOf (insert u A) v =
      if v ∈ insert u A then none
      else
        match h.look u v with
        | some x => some (attachment h.weight A v + x.toRat)
        | none => h.outsideOf A v := by
  by_cases hv : v ∈ insert u A
  · simp [outsideOf, hv]
  · have hvA : v ∉ A := fun h => hv (Finset.mem_insert_of_mem h)
    have hsum : attachment h.weight (insert u A) v = h.weight u v + attachment h.weight A v :=
      Finset.sum_insert hu
    rw [if_neg hv]
    cases hlook : h.look u v with
    | some x =>
        have hweight : h.weight u v = x.toRat := by rw [weight, hlook]
        rw [outsideOf, if_pos ⟨hv, u, Finset.mem_insert_self u A, by simp [hlook]⟩, hsum, hweight,
          add_comm]
    | none =>
        have hweight : h.weight u v = 0 := weight_eq_zero hlook
        simp only [outsideOf, hv, hvA, not_false_eq_true, true_and, Finset.exists_mem_insert, hlook,
          ne_eq, not_true_eq_false, false_or, hsum, hweight, zero_add]

end Adjacency

open Adjacency

/-- Adding a vertex brings the attachments up to date. -/
theorem tracks_tighten {h : Adjacency Extended} (hh : h.Sound) {added : List Vertex} {u : Vertex}
    (hu : u ∉ added) {o : Outside Extended} (ho : o.Tracks (h.outsideOf added.toFinset)) :
    (tighten h (u :: added) u (o.remove u)).Tracks (h.outsideOf (u :: added).toFinset) := by
  have hrow : ∀ entry ∈ h.neighbours u, ∃ x : Rat, 0 ≤ x ∧ entry.2 = .finite x := fun entry he =>
    hh.finite (hh.listed.mem_neighbours.mp he)
  have htracks := (ho.remove u).foldl_lower (u :: added) (hh.listed.nodup_neighbours u) hrow
  have hraised : Outside.raised (u :: added) (h.neighbours u)
      (Function.update (h.outsideOf added.toFinset) u none) =
        h.outsideOf (u :: added).toFinset := by
    funext v
    rw [List.toFinset_cons, outsideOf_insert (by simpa using hu), Outside.raised, get?_neighbours]
    by_cases hvu : v = u
    · subst hvu
      simp
    · by_cases hv : v ∈ added
      · simp [hv, hvu, outsideOf]
      · have hvA : v ∉ added.toFinset := by simpa using hv
        simp only [Finset.mem_insert, List.mem_toFinset, List.mem_cons, hvu, hv, or_self, if_false,
          Function.update_of_ne hvu, outsideOf_getD hvA]
  rw [← hraised]
  exact htracks

/-- The state of a phase after some vertices were added, one of them last. -/
structure Swept (h : Adjacency Extended) (added : List Vertex) (last : Vertex)
    (o : Outside Extended) : Prop where
  nodup : added.Nodup
  subset : ∀ v ∈ added, v ∈ h.keys
  last_mem : last ∈ added
  tracks : o.Tracks (h.outsideOf added.toFinset)
  cohesive : ∀ side, Cohesive h.weight side h.vertices added.toFinset last

/-- The vertex that comes next is outside and has the greatest attachment. -/
theorem Swept.first? {h : Adjacency Extended} (hh : h.Sound) {added : List Vertex} {last : Vertex}
    {o : Outside Extended} (hs : Swept h added last o) {e : Loose Extended}
    (he : Loose.first? o.entries = some e) :
    e.vertex ∉ added ∧ e.vertex ∈ h.keys ∧
      e.slack = .finite (-attachment h.weight added.toFinset e.vertex) ∧
      ∀ v ∈ h.vertices, v ∉ added.toFinset →
        attachment h.weight added.toFinset v ≤ attachment h.weight added.toFinset e.vertex := by
  obtain ⟨x, hx, hslack, hgreatest⟩ := hs.tracks.first? he
  unfold outsideOf at hx
  split at hx
  · rename_i hout
    obtain ⟨hnot, a, -, hlook⟩ := hout
    obtain ⟨y, hy⟩ := Option.ne_none_iff_exists'.mp hlook
    have hvalue := Option.some.inj hx
    rw [hvalue]
    refine ⟨by simpa using hnot, (hh.closed hy).2, hslack, fun v _ hv => ?_⟩
    by_cases hnone : ∀ b ∈ added.toFinset, h.look b v = none
    · -- A vertex without neighbours in the set is attached by nothing.
      rw [attachment_eq_zero hnone, ← hvalue]
      exact Finset.sum_nonneg fun b _ => hh.weight_nonneg b e.vertex
    · push Not at hnone
      apply hgreatest v
      rw [outsideOf, if_pos ⟨hv, hnone⟩]
  · cases hx

theorem Swept.next {h : Adjacency Extended} (hh : h.Sound) {added : List Vertex} {last : Vertex}
    {o : Outside Extended} (hs : Swept h added last o) {e : Loose Extended}
    (he : Loose.first? o.entries = some e) :
    Swept h (e.vertex :: added) e.vertex
      (tighten h (e.vertex :: added) e.vertex (o.remove e.vertex)) := by
  obtain ⟨hnot, hkey, -, hgreatest⟩ := hs.first? hh he
  refine ⟨List.nodup_cons.mpr ⟨hnot, hs.nodup⟩, ?_, List.mem_cons_self, tracks_tighten hh hnot
    hs.tracks, fun side => ?_⟩
  · intro v hv
    rcases List.mem_cons.mp hv with rfl | hv
    · exact hkey
    · exact hs.subset v hv
  · rw [List.toFinset_cons]
    exact (hs.cohesive side).insert hh.weight_symm hh.weight_nonneg (mem_vertices.mpr hkey)
      (by simpa using hnot) hgreatest

/-- While a vertex of a connected graph is missing, some vertex comes next. -/
theorem Swept.exists_first? {h : Adjacency Extended} (hh : h.Sound) (hc : h.Connected)
    {added : List Vertex} {last : Vertex} {o : Outside Extended} (hs : Swept h added last o)
    (hmissing : added.length < h.keys.length) : ∃ e, Loose.first? o.entries = some e := by
  obtain ⟨b, hb, hbadded⟩ : ∃ b ∈ h.keys, b ∉ added := by
    by_contra hnone
    push Not at hnone
    exact absurd (hh.listed.keys.length_le_of_subset hnone) (by omega)
  obtain ⟨c, d, hcd, hside⟩ := hc (fun a => decide (a ∈ added))
    ⟨last, hs.subset last hs.last_mem, b, hb, by simp [hs.last_mem, hbadded]⟩
  obtain ⟨a, v, hav, ha, hv⟩ : ∃ a v, h.look a v ≠ none ∧ a ∈ added ∧ v ∉ added := by
    by_cases hc' : c ∈ added
    · exact ⟨c, d, hcd, hc', by simpa [hc'] using hside⟩
    · exact ⟨d, c, hh.symm c d ▸ hcd, by simpa [hc'] using hside, hc'⟩
  have hsome : h.outsideOf added.toFinset v = some (attachment h.weight added.toFinset v) := by
    rw [outsideOf, if_pos ⟨by simpa using hv, a, by simpa using ha, hav⟩]
  obtain ⟨e, he, -, -⟩ := hs.tracks.exists_entry hsome
  cases hfirst : Loose.first? o.entries with
  | none =>
      rw [Loose.first?_eq_none_iff.mp hfirst] at he
      cases he
  | some e => exact ⟨e, rfl⟩

theorem Swept.sweep {h : Adjacency Extended} (hh : h.Sound) (hc : h.Connected) {count : Nat}
    {added : List Vertex} {last : Vertex} {o : Outside Extended} (hs : Swept h added last o)
    (hcount : added.length + count ≤ h.keys.length) :
    ∃ added', added'.length = added.length + count ∧
      Swept h added' (sweep h count added last o).1 (sweep h count added last o).2 := by
  induction count generalizing added last o with
  | zero => exact ⟨added, rfl, hs⟩
  | succ count ih =>
      obtain ⟨e, he⟩ := hs.exists_first? hh hc (by omega)
      obtain ⟨added', hlength, hs'⟩ := ih (hs.next hh he) (by rw [List.length_cons]; omega)
      rw [List.length_cons] at hlength
      refine ⟨added', by omega, ?_⟩
      rw [MinCut.sweep, he]
      exact hs'

/-! ### The cut of the phase -/

theorem swept_start {h : Adjacency Extended} (hh : h.Sound) {start : Vertex}
    (hstart : start ∈ h.keys) :
    Swept h [start] start ((h.neighbours start).foldl
      (fun (o : Outside Extended) (v, weight) => o.lower v (Scalar.zero - weight))
        Outside.empty) := by
  have hnodup := hh.listed.nodup_neighbours start
  have hrow : ∀ entry ∈ h.neighbours start, ∃ x : Rat, 0 ≤ x ∧ entry.2 = .finite x :=
    fun entry he => hh.finite (hh.listed.mem_neighbours.mp he)
  have hraised : Outside.raised [] (h.neighbours start) (fun _ => none) =
      h.outsideOf [start].toFinset := by
    funext v
    have hloop := hh.loopless start
    by_cases hv : v = start
    · subst hv
      simp [Outside.raised, get?_neighbours, hloop, outsideOf]
    · cases hlook : h.look start v with
      | none => simp [Outside.raised, get?_neighbours, outsideOf, hlook]
      | some x =>
          simp [Outside.raised, get?_neighbours, outsideOf, hlook, hv, attachment, weight]
  refine ⟨by simp, by simpa using hstart, List.mem_singleton_self start, ?_, fun side => ?_⟩
  · rw [Outside.foldl_lower_fresh hnodup (fun v _ => by simp [Outside.recorded, Outside.empty]),
      ← hraised]
    exact Outside.tracks_empty.foldl_lower [] hnodup hrow
  · rw [List.toFinset_cons, List.toFinset_nil, insert_empty_eq]
    exact cohesive_singleton _ _ _ _

/-- Of two vertices, `q` is the weight around the second, and no cut that separates them is
lighter. -/
structure PhaseCut (h : Adjacency Extended) (u v : Vertex) (q : Rat) : Prop where
  fst_mem : u ∈ h.keys
  snd_mem : v ∈ h.keys
  ne : u ≠ v
  around : crossingIn h.weight (fun a => decide (a = v)) h.vertices = q
  least : ∀ side : Vertex → Bool, side u ≠ side v → q ≤ crossingIn h.weight side h.vertices

theorem Swept.phaseCut {h : Adjacency Extended} (hh : h.Sound) {added : List Vertex}
    {last : Vertex} {o : Outside Extended} (hs : Swept h added last o)
    (hlength : added.length + 1 = h.keys.length) {e : Loose Extended}
    (he : Loose.first? o.entries = some e) :
    PhaseCut h last e.vertex (attachment h.weight added.toFinset e.vertex) := by
  obtain ⟨hnot, hkey, -, -⟩ := hs.first? hh he
  have hnotA : e.vertex ∉ added.toFinset := by simpa using hnot
  have hall : h.vertices = insert e.vertex added.toFinset := by
    symm
    apply Finset.eq_of_subset_of_card_le
    · intro v hv
      rw [Finset.mem_insert, List.mem_toFinset] at hv
      exact mem_vertices.mpr (hv.elim (fun heq => heq ▸ hkey) (hs.subset v))
    · rw [hh.card_vertices, Finset.card_insert_of_notMem hnotA,
        List.toFinset_card_of_nodup hs.nodup]
      omega
  refine ⟨hs.subset last hs.last_mem, hkey, fun heq => hnot (heq ▸ hs.last_mem), ?_,
    fun side hside => ?_⟩
  · rw [hall, crossingIn_insert hh.weight_symm hnotA]
    have hfalse : ∀ a ∈ added.toFinset, decide (a = e.vertex) = false := fun a ha =>
      decide_eq_false fun heq => hnotA (heq ▸ ha)
    have hinner : crossingIn h.weight (fun a => decide (a = e.vertex)) added.toFinset = 0 := by
      apply Finset.sum_eq_zero
      intro a ha
      apply Finset.sum_eq_zero
      intro b _
      rw [if_neg]
      simp [hfalse a ha]
    rw [hinner, zero_add]
    apply Finset.sum_congr rfl
    intro a ha
    rw [if_pos]
    simp [hfalse a ha]
  · rw [hall]
    exact (hs.cohesive side).attachment_le hh.weight_symm hh.weight_nonneg (mem_vertices.mpr hkey)
      hnotA hside.symm

/-- The phase of a connected graph finds its cut. -/
theorem phase?_spec {h : Adjacency Extended} (hh : h.Sound) (hc : h.Connected)
    (hsize : 2 ≤ h.keys.length) :
    ∃ u v q, phase? h = some (u, v, .finite q) ∧ PhaseCut h u v q := by
  cases hkeys : h.keys with
  | nil => simp [hkeys] at hsize
  | cons start rest =>
      have hlength : h.keys.length = rest.length + 1 := by rw [hkeys, List.length_cons]
      have hs := swept_start hh (show start ∈ h.keys by simp [hkeys])
      obtain ⟨added, hadded, hs'⟩ := hs.sweep hh hc
        (show [start].length + (rest.length - 1) ≤ h.keys.length by
          rw [List.length_singleton]
          omega)
      rw [List.length_singleton] at hadded
      obtain ⟨e, he⟩ := hs'.exists_first? hh hc (by omega)
      obtain ⟨-, -, hslack, -⟩ := hs'.first? hh he
      refine ⟨_, e.vertex, attachment h.weight added.toFinset e.vertex, ?_,
        hs'.phaseCut hh (by omega) he⟩
      unfold phase?
      rw [hkeys]
      show Option.map _ (Loose.first? _) = _
      rw [he, Option.map_some, hslack, Extended.scalar_zero, Extended.finite_sub_finite,
        sub_neg_eq_add, zero_add]

end TourSearch.MinCut
