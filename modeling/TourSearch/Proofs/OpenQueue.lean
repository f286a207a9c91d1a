import TourSearch.OpenQueue
import TourSearch.Proofs.Extended
import TourSearch.Proofs.Heap
import Mathlib

/-!
The open queue by its entries. Adding and taking nodes adds and removes entries; what is dropped on
the way was closed. The best bound is below the bound of every pending node in the queue, with the
best-first rule because the heap is in order.
-/

namespace TourSearch

open Numeric

/-! ### The order of the entries -/

namespace Numeric.Extended

/-- The place of a value on the extended line. A value that is no number has none, and is put at the
end. -/
def level : Extended → WithBot (WithTop Rat)
  | .negInfinity => ⊥
  | .finite x => ((x : WithTop Rat) : WithBot (WithTop Rat))
  | .infinity => ((⊤ : WithTop Rat) : WithBot (WithTop Rat))
  | .undefined => ((⊤ : WithTop Rat) : WithBot (WithTop Rat))

theorem level_lt_level {a b : Extended} (ha : a ≠ .undefined) (hb : b ≠ .undefined) :
    a.level < b.level ↔ a < b := by
  cases a <;> cases b <;> simp_all [level]
  exact WithBot.coe_lt_coe.mpr (WithTop.coe_lt_top _)

theorem level_inj {a b : Extended} (ha : a ≠ .undefined) (hb : b ≠ .undefined) :
    a.level = b.level ↔ (a == b) = true := by
  rw [beq_iff]
  cases a <;> cases b <;> simp_all [level, Same]

end Numeric.Extended

namespace Waiting

def Comparable (w : Waiting Extended) : Prop := w.priority.bound ≠ .undefined

def sortKey (w : Waiting Extended) : Int ×ₗ WithBot (WithTop Rat) ×ₗ Nat :=
  toLex (w.priority.rank, toLex (w.priority.bound.level, w.number))

theorem before_iff {a b : Waiting Extended} (ha : a.Comparable) (hb : b.Comparable) :
    a.before b = true ↔ a.sortKey < b.sortKey := by
  have hbound := Extended.level_inj ha hb
  have hlt := Extended.level_lt_level ha hb
  rw [sortKey, sortKey, Prod.Lex.toLex_lt_toLex, Prod.Lex.toLex_lt_toLex]
  simp only [hbound, hlt]
  unfold before
  split
  · rename_i hrank
    simp [hrank]
  · rename_i hrank
    rw [not_not] at hrank
    split
    · rename_i heq
      have hnot : ¬a.priority.bound < b.priority.bound := by
        rw [← hlt, hbound.mpr heq]
        exact lt_irrefl _
      simp [hrank, heq, hnot]
    · rename_i heq
      simp [hrank, heq]

theorem orders_before : Heap.Orders before Comparable where
  asymm := by
    intro x y hx hy h
    rw [Bool.eq_false_iff, Ne, before_iff hy hx]
    exact lt_asymm ((before_iff hx hy).mp h)
  trans := by
    intro x y z hx hy hz hxy hyz
    rw [Bool.eq_false_iff, Ne, before_iff, not_lt] at * <;> try assumption
    exact le_trans hxy hyz

end Waiting

namespace OpenQueue

variable {μ : Type} {q : OpenQueue Extended} {t : Tree Extended μ}

def entries (q : OpenQueue Extended) : List (Waiting Extended) := q.heap.toList

theorem isEmpty_iff : q.isEmpty = true ↔ q.entries = [] := by
  simp [isEmpty, Heap.isEmpty, entries, Heap.toList]

/-- A heap in order whose entries belong to nodes of a tree. With the best-first rule entries have
no rank, and the priority of a pending node is its bound. -/
structure Fits (q : OpenQueue Extended) (t : Tree Extended μ) : Prop where
  valid : q.heap.Valid Waiting.before Waiting.Comparable
  known : ∀ e ∈ q.entries, e.node < t.records.size
  ranks : q.rule = .bestFirst → ∀ e ∈ q.entries, e.priority.rank = 0
  bounds : q.rule = .bestFirst → ∀ e ∈ q.entries, (t.node e.node).isPending = true →
    e.priority.bound = (t.node e.node).lowerBound

/-- A tree in which the pending nodes of another one have become less, and not changed their
bounds, fits the same queue. -/
theorem Fits.of_tree (hq : q.Fits t) {t' : Tree Extended μ}
    (hsize : t.records.size ≤ t'.records.size)
    (hsame : ∀ h < t.records.size, (t'.node h).isPending = true →
      (t.node h).isPending = true ∧ (t'.node h).lowerBound = (t.node h).lowerBound) :
    q.Fits t' := by
  refine ⟨hq.valid, fun e he => (hq.known e he).trans_le hsize, hq.ranks,
    fun hrule e he hpending => ?_⟩
  obtain ⟨hold, hbound⟩ := hsame e.node (hq.known e he) hpending
  rw [hbound]
  exact hq.bounds hrule e he hold

@[simp] theorem entries_clear (q : OpenQueue Extended) : q.clear.entries = [] := rfl

theorem fits_clear (q : OpenQueue Extended) (t : Tree Extended μ) : q.clear.Fits t :=
  ⟨Heap.valid_empty, by simp, by simp, by simp⟩

/-! ### Adding -/

theorem comparable_priorityOf {rule : SelectionRule} {n : Node Extended μ} {number : Nat}
    {h : Handle} (hbound : n.lowerBound ≠ .undefined) :
    (⟨priorityOf rule n, number, h⟩ : Waiting Extended).Comparable := by
  cases rule with
  | bestFirst => exact hbound
  | depthFirst => exact hbound
  | breadthFirst => exact fun h => by simp [priorityOf] at h

theorem entries_add_of_pending {h : Handle} (hpending : (t.node h).isPending = true) :
    (q.add t h).entries.Perm (⟨priorityOf q.rule (t.node h), q.next, h⟩ :: q.entries) := by
  simp only [OpenQueue.add, hpending, if_true]
  exact Heap.toList_push Waiting.before q.heap _

theorem Fits.add (hq : q.Fits t) {h : Handle} (hknown : h < t.records.size)
    (hbound : (t.node h).lowerBound ≠ .undefined) : (q.add t h).Fits t := by
  by_cases hpending : (t.node h).isPending = true
  · have hperm := entries_add_of_pending (q := q) hpending
    simp only [OpenQueue.add, hpending, if_true] at hperm ⊢
    refine ⟨hq.valid.push Waiting.orders_before (comparable_priorityOf hbound), fun e he => ?_,
      fun hrule e he => ?_, fun hrule e he hwaits => ?_⟩
    · rcases List.mem_cons.mp (hperm.mem_iff.mp he) with rfl | he
      · exact hknown
      · exact hq.known e he
    · rcases List.mem_cons.mp (hperm.mem_iff.mp he) with rfl | he
      · change q.rule = .bestFirst at hrule
        rw [hrule]
        rfl
      · exact hq.ranks hrule e he
    · rcases List.mem_cons.mp (hperm.mem_iff.mp he) with rfl | he
      · change q.rule = .bestFirst at hrule
        rw [hrule]
        rfl
      · exact hq.bounds hrule e he hwaits
  · simp only [OpenQueue.add, hpending, Bool.false_eq_true, if_false]
    exact hq

theorem Fits.addAll (hq : q.Fits t) {hs : List Handle} (hknown : ∀ h ∈ hs, h < t.records.size)
    (hbound : ∀ h ∈ hs, (t.node h).lowerBound ≠ .undefined) : (q.addAll t hs).Fits t := by
  induction hs generalizing q with
  | nil => exact hq
  | cons h hs ih =>
      exact ih (hq.add (hknown h List.mem_cons_self) (hbound h List.mem_cons_self))
        (fun k hk => hknown k (List.mem_cons_of_mem h hk))
        fun k hk => hbound k (List.mem_cons_of_mem h hk)

def Waits (q : OpenQueue Extended) (h : Handle) : Prop := ∃ e ∈ q.entries, e.node = h

theorem waits_add {h k : Handle} (hpending : (t.node h).isPending = true) :
    (q.add t h).Waits k ↔ k = h ∨ q.Waits k := by
  unfold Waits
  simp only [(entries_add_of_pending hpending).mem_iff, List.mem_cons, exists_eq_or_imp]
  exact or_congr_left eq_comm

theorem waits_addAll {hs : List Handle} (hpending : ∀ h ∈ hs, (t.node h).isPending = true)
    {k : Handle} : (q.addAll t hs).Waits k ↔ k ∈ hs ∨ q.Waits k := by
  induction hs generalizing q with
  | nil => simp [addAll]
  | cons h hs ih =>
      have hfold : q.addAll t (h :: hs) = (q.add t h).addAll t hs := rfl
      rw [hfold, ih (fun k hk => hpending k (List.mem_cons_of_mem h hk)),
        waits_add (hpending h List.mem_cons_self), List.mem_cons]
      tauto

/-! ### Taking out -/

theorem Fits.of_subset (hq : q.Fits t) {q' : OpenQueue Extended} (hrule : q'.rule = q.rule)
    (hvalid : q'.heap.Valid Waiting.before Waiting.Comparable) (hsub : q'.entries ⊆ q.entries) :
    q'.Fits t :=
  ⟨hvalid, fun e he => hq.known e (hsub he), fun hbest e he => hq.ranks (hrule ▸ hbest) e (hsub he),
    fun hbest e he => hq.bounds (hrule ▸ hbest) e (hsub he)⟩

theorem dropClosed_spec {heap : Heap (Waiting Extended)}
    (hv : heap.Valid Waiting.before Waiting.Comparable) {count : Nat}
    (hcount : heap.toList.length ≤ count) :
    (dropClosed t count heap).Valid Waiting.before Waiting.Comparable ∧
      (∀ e, (dropClosed t count heap).min? = some e → (t.node e.node).isPending = true) ∧
      ∃ dropped, heap.toList.Perm (dropped ++ (dropClosed t count heap).toList) ∧
        ∀ e ∈ dropped, (t.node e.node).isPending = false := by
  induction count generalizing heap with
  | zero =>
      have hnil : heap.toList = [] := List.length_eq_zero_iff.mp (Nat.le_zero.mp hcount)
      refine ⟨hv, fun e he => ?_, [], .refl _, by simp⟩
      rw [dropClosed, Heap.min?_eq_none_iff.mpr hnil] at he
      cases he
  | succ count ih =>
      cases hmin : heap.min? with
      | none =>
          have hstop : dropClosed t (count + 1) heap = heap := by rw [dropClosed, hmin]
          rw [hstop]
          exact ⟨hv, by simp [hmin], [], .refl _, by simp⟩
      | some first =>
          by_cases hpending : (t.node first.node).isPending = true
          · have hstop : dropClosed t (count + 1) heap = heap := by
              simp only [dropClosed, hmin, hpending, if_true]
            rw [hstop]
            refine ⟨hv, fun e he => ?_, [], .refl _, by simp⟩
            rw [hmin] at he
            rw [← Option.some.inj he]
            exact hpending
          · have hnext : dropClosed t (count + 1) heap =
                dropClosed t count (heap.dropMin Waiting.before) := by
              simp only [dropClosed, hmin, hpending, Bool.false_eq_true, if_false]
            have hperm := Heap.toList_dropMin Waiting.before hmin
            have hlength := hperm.length_eq
            rw [List.length_cons] at hlength
            obtain ⟨hvalid, hfront, dropped, hrest, hclosed⟩ :=
              ih (hv.dropMin Waiting.orders_before) (by omega)
            rw [hnext]
            refine ⟨hvalid, hfront, first :: dropped, hperm.trans (hrest.cons first), ?_⟩
            intro e he
            rcases List.mem_cons.mp he with rfl | he
            · simpa using hpending
            · exact hclosed e he

theorem pop_eq (q : OpenQueue Extended) (t : Tree Extended μ) :
    q.pop t = ((dropClosed t q.heap.size q.heap).min?.map (·.node),
      { q with heap := (dropClosed t q.heap.size q.heap).dropMin Waiting.before }) := rfl

/-- When no node is taken out, none was pending. -/
theorem Fits.pop_none (hq : q.Fits t) {q' : OpenQueue Extended} (hpop : q.pop t = (none, q')) :
    q'.Fits t ∧ q'.entries = [] ∧ ∀ e ∈ q.entries, (t.node e.node).isPending = false := by
  have hlength : q.heap.toList.length ≤ q.heap.size := by simp [Heap.toList, Heap.size]
  obtain ⟨hvalid, -, dropped, hperm, hclosed⟩ := dropClosed_spec (t := t) hq.valid hlength
  rw [pop_eq, Prod.mk.injEq, Option.map_eq_none_iff] at hpop
  obtain ⟨hmin, rfl⟩ := hpop
  have hnil := Heap.min?_eq_none_iff.mp hmin
  have hempty : ((dropClosed t q.heap.size q.heap).dropMin Waiting.before).toList = [] := by
    have hsize : ¬0 < (dropClosed t q.heap.size q.heap).items.size := by
      simpa [Heap.toList] using hnil
    rw [Heap.dropMin, dif_neg hsize, hnil]
  refine ⟨hq.of_subset rfl (hvalid.dropMin Waiting.orders_before) ?_, hempty, fun e he => ?_⟩
  · show ((dropClosed t q.heap.size q.heap).dropMin Waiting.before).toList ⊆ _
    rw [hempty]
    exact List.nil_subset _
  · rw [hnil, List.append_nil] at hperm
    exact hclosed e (hperm.mem_iff.mp he)

/-- The node that is taken out is pending; apart from it only closed nodes are dropped. -/
theorem Fits.pop_some (hq : q.Fits t) {h : Handle} {q' : OpenQueue Extended}
    (hpop : q.pop t = (some h, q')) :
    q'.Fits t ∧ (t.node h).isPending = true ∧ ∃ e dropped, e.node = h ∧
      q.entries.Perm (dropped ++ e :: q'.entries) ∧
      ∀ e ∈ dropped, (t.node e.node).isPending = false := by
  have hlength : q.heap.toList.length ≤ q.heap.size := by simp [Heap.toList, Heap.size]
  obtain ⟨hvalid, hfront, dropped, hperm, hclosed⟩ := dropClosed_spec (t := t) hq.valid hlength
  rw [pop_eq, Prod.mk.injEq, Option.map_eq_some_iff] at hpop
  obtain ⟨⟨e, hmin, rfl⟩, rfl⟩ := hpop
  have hall := hperm.trans ((Heap.toList_dropMin Waiting.before hmin).append_left dropped)
  refine ⟨hq.of_subset rfl (hvalid.dropMin Waiting.orders_before) fun x hx => ?_, hfront e hmin, e,
    dropped, rfl, hall, hclosed⟩
  exact hall.mem_iff.mpr (List.mem_append_right _ (List.mem_cons_of_mem e hx))

theorem entries_prune (q : OpenQueue Extended) (hq : q.Fits t) :
    (q.prune t).2.Fits t ∧
      (q.prune t).2.entries.Perm (q.entries.filter fun e => (t.node e.node).isPending) := by
  have hclass : ∀ e ∈ q.heap.toList.filter (fun e => (t.node e.node).isPending),
      e.Comparable := fun e he => hq.valid.mem (List.mem_filter.mp he).1
  obtain ⟨hvalid, hperm⟩ := Heap.ofList_spec Waiting.orders_before hclass
  refine ⟨hq.of_subset rfl hvalid fun e he => ?_, hperm⟩
  exact (List.mem_filter.mp (hperm.mem_iff.mp he)).1

/-! ### The best bound -/

theorem foldl_smaller_le {l : List Extended} {x : Extended} (hx : x ≠ .undefined)
    (hl : ∀ y ∈ l, y ≠ .undefined) :
    l.foldl Scalar.smaller x ≠ .undefined ∧ l.foldl Scalar.smaller x ≤ x ∧
      ∀ y ∈ l, l.foldl Scalar.smaller x ≤ y := by
  induction l generalizing x with
  | nil => exact ⟨hx, Extended.le_refl hx, by simp⟩
  | cons y l ih =>
      have hy := hl y List.mem_cons_self
      have hrest := fun z hz => hl z (List.mem_cons_of_mem y hz)
      rw [List.foldl_cons]
      unfold Scalar.smaller
      split
      · rename_i hlt
        obtain ⟨hne, hle, hall⟩ := ih hy hrest
        refine ⟨hne, Extended.le_trans hle (Extended.le_of_lt hlt), fun z hz => ?_⟩
        rcases List.mem_cons.mp hz with rfl | hz
        · exact hle
        · exact hall z hz
      · rename_i hlt
        obtain ⟨hne, hle, hall⟩ := ih hx hrest
        refine ⟨hne, hle, fun z hz => ?_⟩
        rcases List.mem_cons.mp hz with rfl | hz
        · exact Extended.le_trans hle ((Extended.not_lt hy hx).mp hlt)
        · exact hall z hz

theorem least_le {l : List Extended} (hl : ∀ y ∈ l, y ≠ .undefined) :
    least l ≠ .undefined ∧ ∀ y ∈ l, least l ≤ y := by
  cases l with
  | nil => exact ⟨by simp [least], by simp⟩
  | cons x l =>
      obtain ⟨hne, hle, hall⟩ := foldl_smaller_le (hl x List.mem_cons_self)
        fun y hy => hl y (List.mem_cons_of_mem x hy)
      refine ⟨hne, fun y hy => ?_⟩
      rcases List.mem_cons.mp hy with rfl | hy
      · exact hle
      · exact hall y hy

/-- The best bound is a number, and at most the bound of any pending node in the queue. -/
theorem Fits.bestBound_le (hq : q.Fits t) (hbounds : ∀ h, (t.node h).lowerBound ≠ .undefined) :
    q.bestBound t ≠ .undefined ∧ ∀ e ∈ q.entries, (t.node e.node).isPending = true →
      q.bestBound t ≤ (t.node e.node).lowerBound := by
  have hlist : ∀ y ∈ q.heap.toList.map (fun e => (t.node e.node).lowerBound), y ≠ .undefined := by
    intro y hy
    obtain ⟨e, -, rfl⟩ := List.mem_map.mp hy
    exact hbounds e.node
  have hleast := least_le hlist
  cases hrule : q.rule with
  | bestFirst =>
      cases hmin : q.heap.min? with
      | none =>
          have hnil : q.entries = [] := Heap.min?_eq_none_iff.mp hmin
          simp [bestBound, hrule, hmin, hnil]
      | some first =>
          have hbest : q.bestBound t = first.priority.bound := by simp [bestBound, hrule, hmin]
          have hfirst : first ∈ q.entries :=
            (Heap.toList_dropMin Waiting.before hmin).mem_iff.mpr List.mem_cons_self
          rw [hbest]
          refine ⟨hq.valid.mem hfirst, fun e he hpending => ?_⟩
          have hnot := hq.valid.min?_le Waiting.orders_before hmin he
          rw [Bool.eq_false_iff, Ne, Waiting.before_iff (hq.valid.mem he) (hq.valid.mem hfirst),
            Waiting.sortKey, Waiting.sortKey, hq.ranks hrule e he, hq.ranks hrule first hfirst,
            Prod.Lex.toLex_lt_toLex, Prod.Lex.toLex_lt_toLex,
            Extended.level_lt_level (hq.valid.mem he) (hq.valid.mem hfirst)] at hnot
          rw [← hq.bounds hrule e he hpending,
            ← Extended.not_lt (hq.valid.mem he) (hq.valid.mem hfirst)]
          exact fun hlt => hnot (Or.inr ⟨rfl, Or.inl hlt⟩)
  | depthFirst =>
      have hbest : q.bestBound t = least (q.heap.toList.map fun e =>
        (t.node e.node).lowerBound) := by
        simp [bestBound, hrule]
      rw [hbest]
      exact ⟨hleast.1, fun e he _ => hleast.2 _ (List.mem_map_of_mem he)⟩
  | breadthFirst =>
      have hbest : q.bestBound t = least (q.heap.toList.map fun e =>
        (t.node e.node).lowerBound) := by
        simp [bestBound, hrule]
      rw [hbest]
      exact ⟨hleast.1, fun e he _ => hleast.2 _ (List.mem_map_of_mem he)⟩

end OpenQueue

end TourSearch
