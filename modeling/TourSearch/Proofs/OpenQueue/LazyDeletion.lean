import TourSearch.Proofs.OpenQueue
import TourSearch.Proofs.Tree
import Mathlib

/-!
The open queue is a sorted list with lazy deletion. Whatever is done with it, and however the nodes
change in the meantime, it answers as a list would that is kept in the order of the keys, equal keys
in the order of insertion, and from which closed nodes are removed when they come to the front
(`WaitingList`). The heap holds the entries of this list and no others, so every use of the queue is
described by what it does to a list.
-/

namespace TourSearch

open Numeric

variable {μ : Type}

/-! ### Uses of a queue -/

/-- What is done with a queue. -/
inductive Use where
  | add (h : Handle)
  | addAll (hs : List Handle)
  | pop
  | peek
  | prune
  | clear

structure Moment (μ : Type) where
  tree : Tree Extended μ
  use : Use

inductive Reply where
  | done
  | next (h : Option Handle)
  | removed (count : Nat)
  deriving DecidableEq

namespace OpenQueue

def serve (q : OpenQueue Extended) (m : Moment μ) : Reply × OpenQueue Extended :=
  match m.use with
  | .add h => (.done, q.add m.tree h)
  | .addAll hs => (.done, q.addAll m.tree hs)
  | .pop => (.next (q.pop m.tree).1, (q.pop m.tree).2)
  | .peek => (.next (q.peek m.tree).1, (q.peek m.tree).2)
  | .prune => (.removed (q.prune m.tree).1, (q.prune m.tree).2)
  | .clear => (.done, q.clear)

def serveAll (q : OpenQueue Extended) : List (Moment μ) → List Reply × OpenQueue Extended
  | [] => ([], q)
  | m :: rest => ((q.serve m).1 :: ((q.serve m).2.serveAll rest).1, ((q.serve m).2.serveAll rest).2)

/-- The nodes that are taken out one after the other, at most `count`. -/
def draw (t : Tree Extended μ) : Nat → OpenQueue Extended → List Handle
  | 0, _ => []
  | count + 1, q =>
      match q.pop t with
      | (some h, q) => h :: draw t count q
      | (none, _) => []

end OpenQueue

def Waiting.isClosed (t : Tree Extended μ) (e : Waiting Extended) : Bool :=
  !(t.node e.node).isPending

/-- The entries of a queue in the order in which they leave, and the number for the next one. -/
structure WaitingList where
  rule : SelectionRule
  entries : List (Waiting Extended)
  next : Nat

namespace WaitingList

def empty (rule : SelectionRule) : WaitingList := ⟨rule, [], 0⟩

def add (l : WaitingList) (t : Tree Extended μ) (h : Handle) : WaitingList :=
  if (t.node h).isPending then
    { l with
      entries := (⟨OpenQueue.priorityOf l.rule (t.node h), l.next, h⟩ :: l.entries).mergeSort
        fun a b => decide (a.sortKey ≤ b.sortKey)
      next := l.next + 1 }
  else l

def addAll (l : WaitingList) (t : Tree Extended μ) (hs : List Handle) : WaitingList :=
  hs.foldl (fun l h => l.add t h) l

def settle (l : WaitingList) (t : Tree Extended μ) : WaitingList :=
  { l with entries := l.entries.dropWhile (·.isClosed t) }

def first? (l : WaitingList) : Option Handle := l.entries.head?.map (·.node)

def serve (l : WaitingList) (m : Moment μ) : Reply × WaitingList :=
  match m.use with
  | .add h => (.done, l.add m.tree h)
  | .addAll hs => (.done, l.addAll m.tree hs)
  | .pop =>
      (.next (l.settle m.tree).first?, { l with entries := (l.settle m.tree).entries.tail })
  | .peek => (.next (l.settle m.tree).first?, l.settle m.tree)
  | .prune =>
      (.removed (l.entries.countP (·.isClosed m.tree)),
        { l with entries := l.entries.filter fun e => !e.isClosed m.tree })
  | .clear => (.done, { l with entries := [] })

def serveAll (l : WaitingList) : List (Moment μ) → List Reply × WaitingList
  | [] => ([], l)
  | m :: rest => ((l.serve m).1 :: ((l.serve m).2.serveAll rest).1, ((l.serve m).2.serveAll rest).2)

end WaitingList

/-! ### Heaps and sorted lists -/

namespace Waiting

variable {heap : Heap (Waiting Extended)} {l : List (Waiting Extended)} {w e : Waiting Extended}
  {t : Tree Extended μ}

theorem not_isClosed (t : Tree Extended μ) (e : Waiting Extended) :
    (!e.isClosed t) = (t.node e.node).isPending := Bool.not_not _

/-- A heap in order, and its entries in the order in which they leave it. -/
structure Lists (heap : Heap (Waiting Extended)) (l : List (Waiting Extended)) : Prop where
  valid : heap.Valid before Comparable
  perm : heap.toList.Perm l
  sorted : l.Pairwise fun a b => a.sortKey < b.sortKey

theorem lists_empty : Lists Heap.empty [] :=
  ⟨Heap.valid_empty, .refl _, .nil⟩

theorem Lists.comparable (h : Lists heap l) (he : e ∈ l) : e.Comparable :=
  h.valid.mem (h.perm.mem_iff.mpr he)

theorem Lists.size_eq (h : Lists heap l) : heap.size = l.length := by
  rw [← h.perm.length_eq]
  simp [Heap.size, Heap.toList]

/-- The entry in front of the heap is the first of the list. -/
theorem Lists.min?_eq (h : Lists heap l) : heap.min? = l.head? := by
  cases l with
  | nil => exact Heap.min?_eq_none_iff.mpr (List.perm_nil.mp h.perm)
  | cons e l =>
      have he : e ∈ heap.toList := h.perm.mem_iff.mpr List.mem_cons_self
      cases hmin : heap.min? with
      | none =>
          rw [Heap.min?_eq_none_iff.mp hmin] at he
          exact absurd he List.not_mem_nil
      | some first =>
          have hfirst : first ∈ e :: l := h.perm.mem_iff.mp
            ((Heap.toList_dropMin before hmin).mem_iff.mpr List.mem_cons_self)
          rcases List.mem_cons.mp hfirst with rfl | hrest
          · rfl
          · have hlt := (List.pairwise_cons.mp h.sorted).1 first hrest
            have hle := h.valid.min?_le orders_before hmin he
            rw [Bool.eq_false_iff, Ne, before_iff (h.valid.mem he) (h.comparable hfirst)] at hle
            exact absurd hlt hle

theorem Lists.dropMin (h : Lists heap l) : Lists (heap.dropMin before) l.tail := by
  refine ⟨h.valid.dropMin orders_before, ?_, h.sorted.tail⟩
  have hmin := h.min?_eq
  cases l with
  | nil =>
      have hsize : ¬0 < heap.items.size := by
        simpa [Heap.toList] using List.perm_nil.mp h.perm
      rw [Heap.dropMin, dif_neg hsize]
      exact h.perm
  | cons e l => exact ((Heap.toList_dropMin before hmin).symm.trans h.perm).cons_inv

/-- Removing closed entries from the front of the heap removes them from the front of the list. -/
theorem Lists.dropClosed (h : Lists heap l) {count : Nat} (hcount : l.length ≤ count) :
    Lists (OpenQueue.dropClosed t count heap) (l.dropWhile (·.isClosed t)) := by
  induction count generalizing heap l with
  | zero =>
      obtain rfl := List.length_eq_zero_iff.mp (Nat.le_zero.mp hcount)
      exact h
  | succ count ih =>
      have hmin := h.min?_eq
      cases l with
      | nil =>
          rw [OpenQueue.dropClosed, hmin]
          exact h
      | cons e l =>
          rw [OpenQueue.dropClosed, hmin]
          by_cases hpending : (t.node e.node).isPending = true
          · simpa [hpending, isClosed] using h
          · simpa [hpending, isClosed] using ih h.dropMin (Nat.le_of_succ_le_succ hcount)

theorem Lists.push (h : Lists heap l) (hw : w.Comparable) (hnew : ∀ e ∈ l, e.number < w.number) :
    Lists (heap.push before w) ((w :: l).mergeSort fun a b => decide (a.sortKey ≤ b.sortKey)) := by
  have hperm := List.mergeSort_perm (w :: l) fun a b => decide (a.sortKey ≤ b.sortKey)
  refine ⟨h.valid.push orders_before hw,
    ((Heap.toList_push before heap w).trans (h.perm.cons w)).trans hperm.symm, ?_⟩
  have hsorted : ((w :: l).mergeSort fun a b => decide (a.sortKey ≤ b.sortKey)).Pairwise
      fun a b => decide (a.sortKey ≤ b.sortKey) = true :=
    List.pairwise_mergeSort
      (fun a b c hab hbc => by simpa using le_trans (of_decide_eq_true hab) (of_decide_eq_true hbc))
      (fun a b => by simpa using le_total a.sortKey b.sortKey) (w :: l)
  -- The numbers tell equal keys apart.
  have hdistinct : (w :: l).Pairwise fun a b => a.sortKey ≠ b.sortKey := by
    refine List.pairwise_cons.mpr ⟨fun e he heq => ?_, h.sorted.imp ne_of_lt⟩
    exact (hnew e he).ne (congrArg (fun k => (ofLex (ofLex k).2).2) heq).symm
  have hdistinct' := hperm.symm.pairwise hdistinct fun hne => hne.symm
  exact (hsorted.and hdistinct').imp fun hab => lt_of_le_of_ne (of_decide_eq_true hab.1) hab.2

theorem Lists.prune (h : Lists heap l) :
    Lists (Heap.ofList before (heap.toList.filter fun e => (t.node e.node).isPending))
      (l.filter fun e => !e.isClosed t) := by
  have hclass : ∀ e ∈ heap.toList.filter (fun e => (t.node e.node).isPending), e.Comparable :=
    fun e he => h.valid.mem (List.mem_filter.mp he).1
  obtain ⟨hvalid, hperm⟩ := Heap.ofList_spec orders_before hclass
  simp only [not_isClosed]
  exact ⟨hvalid, hperm.trans (h.perm.filter _), h.sorted.filter _⟩

/-! ### Sorted lists with closed entries -/

/-- The first entry that is not closed is the least one, and those behind it are the larger ones. -/
theorem dropWhile_isClosed_of_least (hsorted : l.Pairwise fun a b => a.sortKey < b.sortKey)
    (he : e ∈ l) (hpending : (t.node e.node).isPending = true)
    (hleast : ∀ e' ∈ l, (t.node e'.node).isPending = true → e.sortKey ≤ e'.sortKey) :
    l.dropWhile (·.isClosed t) = e :: l.filter fun x => decide (e.sortKey < x.sortKey) := by
  induction l with
  | nil => exact absurd he List.not_mem_nil
  | cons a l ih =>
      obtain ⟨hfirst, hrest⟩ := List.pairwise_cons.mp hsorted
      rcases List.mem_cons.mp he with rfl | hmem
      · have hall : l.filter (fun x => decide (e.sortKey < x.sortKey)) = l :=
          List.filter_eq_self.mpr fun x hx => decide_eq_true (hfirst x hx)
        simp [isClosed, hpending, hall]
      · have hlt := hfirst e hmem
        have hclosed : a.isClosed t = true := by
          cases hwaits : (t.node a.node).isPending with
          | false => simp [isClosed, hwaits]
          | true => exact absurd (hleast a List.mem_cons_self hwaits) (not_le.mpr hlt)
        rw [List.dropWhile_cons_of_pos hclosed,
          ih hrest hmem fun e' he' => hleast e' (List.mem_cons_of_mem a he'),
          List.filter_cons_of_neg (by simpa using hlt.le)]

theorem isPending_of_head? (he : (l.dropWhile (·.isClosed t)).head? = some e) :
    (t.node e.node).isPending = true := by
  have hnot := List.head?_dropWhile_not (fun e : Waiting Extended => e.isClosed t) l
  rw [he] at hnot
  simpa [isClosed] using hnot

/-- Closed entries do not count among the pending ones. -/
theorem filter_dropWhile_isClosed (t : Tree Extended μ) (l : List (Waiting Extended)) :
    (l.dropWhile (·.isClosed t)).filter (fun e => !e.isClosed t) =
      l.filter fun e => !e.isClosed t := by
  induction l with
  | nil => rfl
  | cons a l ih =>
      by_cases hclosed : a.isClosed t = true
      · rw [List.dropWhile_cons_of_pos hclosed, List.filter_cons_of_neg (by simp [hclosed]), ih]
      · rw [List.dropWhile_cons_of_neg hclosed]

end Waiting

/-! ### Queues and waiting lists -/

namespace OpenQueue

open Waiting

variable {q : OpenQueue Extended} {l : WaitingList} {t : Tree Extended μ}

structure Follows (q : OpenQueue Extended) (l : WaitingList) : Prop where
  rule_eq : q.rule = l.rule
  next_eq : q.next = l.next
  lists : Lists q.heap l.entries
  numbers : ∀ e ∈ l.entries, e.number < l.next

theorem follows_empty (rule : SelectionRule) : (empty rule).Follows (WaitingList.empty rule) :=
  ⟨rfl, rfl, lists_empty, fun _ he => absurd he List.not_mem_nil⟩

theorem Follows.add (hq : q.Follows l) {h : Handle} (hbound : (t.node h).lowerBound ≠ .undefined) :
    (q.add t h).Follows (l.add t h) := by
  rw [OpenQueue.add, WaitingList.add]
  by_cases hpending : (t.node h).isPending = true
  · rw [if_pos hpending, if_pos hpending, hq.rule_eq, hq.next_eq]
    refine ⟨rfl, rfl, hq.lists.push (comparable_priorityOf hbound) hq.numbers, fun e he => ?_⟩
    rcases List.mem_cons.mp ((List.mergeSort_perm _ _).mem_iff.mp he) with rfl | he
    · exact Nat.lt_succ_self _
    · exact Nat.lt_succ_of_lt (hq.numbers e he)
  · rw [if_neg hpending, if_neg hpending]
    exact hq

theorem Follows.addAll (hq : q.Follows l) {hs : List Handle}
    (hbound : ∀ h, (t.node h).lowerBound ≠ .undefined) :
    (q.addAll t hs).Follows (l.addAll t hs) := by
  induction hs generalizing q l with
  | nil => exact hq
  | cons h hs ih => exact ih (hq.add (hbound h))

/-- A queue whose entries have become less. -/
theorem Follows.less (hq : q.Follows l) {heap : Heap (Waiting Extended)}
    {entries : List (Waiting Extended)} (hlists : Lists heap entries)
    (hsub : entries ⊆ l.entries) : { q with heap }.Follows { l with entries } :=
  ⟨hq.rule_eq, hq.next_eq, hlists, fun e he => hq.numbers e (hsub he)⟩

theorem Follows.settle (hq : q.Follows l) (t : Tree Extended μ) :
    (q.settle t).Follows (l.settle t) :=
  hq.less (hq.lists.dropClosed hq.lists.size_eq.ge) (List.dropWhile_subset _)

theorem Follows.first?_eq (hq : q.Follows l) : q.heap.min?.map (·.node) = l.first? := by
  rw [hq.lists.min?_eq, WaitingList.first?]

theorem Follows.prune_fst (hq : q.Follows l) (t : Tree Extended μ) :
    (q.prune t).1 = l.entries.countP (·.isClosed t) := by
  have hkept : (q.heap.toList.filter fun e => (t.node e.node).isPending).length =
      (l.entries.filter fun e => (t.node e.node).isPending).length :=
    (hq.lists.perm.filter _).length_eq
  have hsplit := List.length_eq_countP_add_countP (l := l.entries) (fun e => e.isClosed t)
  have hpending : l.entries.countP (fun e => decide ¬e.isClosed t = true) =
      (l.entries.filter fun e => (t.node e.node).isPending).length := by
    rw [List.countP_eq_length_filter]
    simp [isClosed]
  rw [prune, hq.lists.size_eq, hkept]
  omega

/-- Every use gives the same reply, and the queue goes on holding what the list lists. -/
theorem Follows.serve (hq : q.Follows l) {m : Moment μ}
    (hbound : ∀ h, (m.tree.node h).lowerBound ≠ .undefined) :
    (q.serve m).1 = (l.serve m).1 ∧ (q.serve m).2.Follows (l.serve m).2 := by
  obtain ⟨t, use⟩ := m
  have hsettled := hq.settle t
  cases use with
  | add h => exact ⟨rfl, hq.add (hbound h)⟩
  | addAll hs => exact ⟨rfl, hq.addAll hbound⟩
  | pop =>
      refine ⟨congrArg Reply.next hsettled.first?_eq, hq.less hsettled.lists.dropMin ?_⟩
      exact List.Subset.trans (List.tail_subset _) (List.dropWhile_subset _)
  | peek => exact ⟨congrArg Reply.next hsettled.first?_eq, hsettled⟩
  | prune =>
      exact ⟨congrArg Reply.removed (hq.prune_fst t),
        hq.less hq.lists.prune List.filter_sublist.subset⟩
  | clear => exact ⟨rfl, hq.less lists_empty (List.nil_subset _)⟩

theorem Follows.serveAll (hq : q.Follows l) {moments : List (Moment μ)}
    (hbounds : ∀ m ∈ moments, ∀ h, (m.tree.node h).lowerBound ≠ .undefined) :
    (q.serveAll moments).1 = (l.serveAll moments).1 ∧
      (q.serveAll moments).2.Follows (l.serveAll moments).2 := by
  induction moments generalizing q l with
  | nil => exact ⟨rfl, hq⟩
  | cons m rest ih =>
      obtain ⟨hreply, hnext⟩ := hq.serve (hbounds m List.mem_cons_self)
      obtain ⟨hreplies, hlast⟩ := ih hnext fun m' hm' => hbounds m' (List.mem_cons_of_mem m hm')
      refine ⟨?_, hlast⟩
      rw [OpenQueue.serveAll, WaitingList.serveAll, hreply, hreplies]

/-! ### One more use -/

theorem Follows.pop_none (hq : q.Follows l)
    (hclosed : ∀ e ∈ q.entries, (t.node e.node).isPending = false) :
    (q.pop t).1 = none ∧ (q.pop t).2.entries = [] := by
  have hnil : (l.settle t).entries = [] := List.dropWhile_eq_nil_iff.mpr fun e he => by
    rw [isClosed, hclosed e (hq.lists.perm.mem_iff.mpr he), Bool.not_false]
  have hsettled := (hq.settle t).lists
  rw [hnil] at hsettled
  exact ⟨congrArg (Option.map _) hsettled.min?_eq, List.perm_nil.mp hsettled.dropMin.perm⟩

theorem Follows.pop_least (hq : q.Follows l) {e : Waiting Extended} (he : e ∈ q.entries)
    (hpending : (t.node e.node).isPending = true)
    (hleast : ∀ e' ∈ q.entries, (t.node e'.node).isPending = true → e.sortKey ≤ e'.sortKey) :
    (q.pop t).1 = some e.node ∧
      (q.pop t).2.entries.Perm (q.entries.filter fun x => decide (e.sortKey < x.sortKey)) := by
  have hsplit : (l.settle t).entries =
      e :: l.entries.filter fun x => decide (e.sortKey < x.sortKey) :=
    dropWhile_isClosed_of_least hq.lists.sorted (hq.lists.perm.mem_iff.mp he) hpending
      fun e' he' => hleast e' (hq.lists.perm.mem_iff.mpr he')
  have hsettled := (hq.settle t).lists
  rw [hsplit] at hsettled
  exact ⟨congrArg (Option.map _) hsettled.min?_eq,
    hsettled.dropMin.perm.trans (hq.lists.perm.filter _).symm⟩

theorem dropClosed_of_front {heap : Heap (Waiting Extended)}
    (hfront : ∀ e, heap.min? = some e → (t.node e.node).isPending = true) (count : Nat) :
    dropClosed t count heap = heap := by
  cases count with
  | zero => rfl
  | succ count =>
      rw [dropClosed]
      cases hmin : heap.min? with
      | none => rfl
      | some e => exact if_pos (hfront e hmin)

theorem Follows.settle_settle (hq : q.Follows l) (t : Tree Extended μ) :
    (q.settle t).settle t = q.settle t := by
  have hfront : ∀ e, (q.settle t).heap.min? = some e → (t.node e.node).isPending = true := by
    intro e he
    rw [(hq.settle t).lists.min?_eq] at he
    exact isPending_of_head? he
  have hheap := dropClosed_of_front hfront (q.settle t).heap.size
  exact congrArg (fun heap => { q with heap }) hheap

theorem Follows.pop_peek (hq : q.Follows l) (t : Tree Extended μ) :
    (q.peek t).2.pop t = q.pop t := by
  have hpeek : (q.peek t).2.pop t = (((q.settle t).settle t).heap.min?.map (·.node),
      { (q.settle t).settle t with
        heap := ((q.settle t).settle t).heap.dropMin Waiting.before }) := rfl
  rw [hpeek, hq.settle_settle]
  rfl

theorem Follows.draw_eq (hq : q.Follows l) (t : Tree Extended μ) (count : Nat) :
    q.draw t count =
      ((l.entries.filter fun e => (t.node e.node).isPending).take count).map (·.node) := by
  simp only [← not_isClosed]
  induction count generalizing q l with
  | zero => rfl
  | succ count ih =>
      have hsettled := hq.settle t
      have hlists : Lists (q.settle t).heap (l.entries.dropWhile (·.isClosed t)) := hsettled.lists
      have hpop : q.pop t = ((l.entries.dropWhile (·.isClosed t)).head?.map (·.node),
          { q with heap := (q.settle t).heap.dropMin Waiting.before }) :=
        Prod.ext hsettled.first?_eq rfl
      rw [draw, hpop, ← filter_dropWhile_isClosed]
      cases hentries : l.entries.dropWhile (·.isClosed t) with
      | nil => rfl
      | cons e rest =>
          rw [hentries] at hlists
          have hopen : (t.node e.node).isPending = true :=
            isPending_of_head? (congrArg List.head? hentries)
          have hsub : rest ⊆ l.entries := fun x hx =>
            List.dropWhile_subset _ (hentries ▸ List.mem_cons_of_mem e hx)
          have hnext := ih (hq.less hlists.dropMin hsub)
          rw [List.filter_cons_of_pos (by rwa [not_isClosed]), List.take_succ_cons, List.map_cons]
          exact congrArg (e.node :: ·) hnext

/-- After any uses, between which the nodes may change in any way, a queue has given the replies of
a waiting list and holds its entries, and its heap is in order. Whatever the nodes are then like:
the node that is taken out is that of the least entry among the pending ones, and what leaves with
it are the smaller entries; when no entry is pending, nothing is taken out and nothing stays. A look
at the next node tells what is taken out after it. Pruning removes the closed entries and tells
their number. The nodes that are taken out one after the other are the pending ones in the order of
the list. -/
theorem serves_as_waiting_list (rule : SelectionRule) {moments : List (Moment μ)}
    (hbounds : ∀ m ∈ moments, ∀ h, (m.tree.node h).lowerBound ≠ .undefined) :
    let q := ((empty rule).serveAll moments).2
    let l := ((WaitingList.empty rule).serveAll moments).2
    ((empty rule).serveAll moments).1 = ((WaitingList.empty rule).serveAll moments).1 ∧
    Heap.Ordered Waiting.before q.heap.items ∧
    q.entries.Perm l.entries ∧
    l.entries.Pairwise (fun a b => a.sortKey < b.sortKey) ∧
    ∀ t : Tree Extended μ,
      ((∀ e ∈ q.entries, (t.node e.node).isPending = false) →
        (q.pop t).1 = none ∧ (q.pop t).2.entries = []) ∧
      (∀ e ∈ q.entries, (t.node e.node).isPending = true →
        (∀ e' ∈ q.entries, (t.node e'.node).isPending = true → e.sortKey ≤ e'.sortKey) →
        (q.pop t).1 = some e.node ∧
          (q.pop t).2.entries.Perm (q.entries.filter fun x => decide (e.sortKey < x.sortKey))) ∧
      (q.peek t).1 = ((q.peek t).2.pop t).1 ∧ (q.peek t).2.pop t = q.pop t ∧
      (q.prune t).2.entries.Perm (q.entries.filter fun e => (t.node e.node).isPending) ∧
      (q.prune t).1 = q.entries.countP (fun e => !(t.node e.node).isPending) ∧
      ∀ count, q.draw t count =
        ((l.entries.filter fun e => (t.node e.node).isPending).take count).map (·.node) := by
  intro q l
  obtain ⟨hreplies, hq⟩ : _ ∧ q.Follows l := (follows_empty rule).serveAll hbounds
  refine ⟨hreplies, hq.lists.valid.ordered, hq.lists.perm, hq.lists.sorted, fun t =>
    ⟨hq.pop_none, fun e he => hq.pop_least he, ?_, hq.pop_peek t, ?_, ?_, hq.draw_eq t⟩⟩
  · rw [hq.pop_peek]
    rfl
  · have hpruned := (hq.lists.prune (t := t)).perm
    simp only [not_isClosed] at hpruned
    exact hpruned.trans (hq.lists.perm.filter _).symm
  · exact (hq.prune_fst t).trans (hq.lists.perm.countP_eq _).symm

def fourNodes (bounds : List Extended) (closed : List Handle) : Tree Extended Unit :=
  let t := ((Tree.initial : Tree Extended Unit).createChildren Tree.root
    ((List.range 4).map fun i => ⟨i, ()⟩)).2
  let t := bounds.zipIdx.foldl
    (fun t (bound, i) => t.modify (i + 1) fun n => { n with lowerBound := bound }) t
  closed.foldl (fun t h => t.modify h fun n => { n with status := .prunedBound }) t

/-- The root is branched and does not enter. Node 4 is closed while it is in front, the bound of
node 1 rises while it waits, and node 1 comes back with its new bound. -/
def shifting : List (Moment Unit) :=
  let t := fourNodes [.finite 5, .infinity, .finite 5, .finite 4] []
  let later := fourNodes [.finite 9, .infinity, .finite 5, .finite 4] [4]
  [⟨t, .addAll [1, 2, 3, 4, 0]⟩, ⟨later, .peek⟩, ⟨later, .pop⟩, ⟨later, .add 1⟩,
    ⟨fourNodes [.finite 9, .infinity, .finite 5, .finite 4] [3, 4], .prune⟩]

theorem serves_as_waiting_list_shifting :
    (∀ m ∈ shifting, ∀ h, (m.tree.node h).lowerBound ≠ .undefined) ∧
    ((empty .bestFirst).serveAll shifting).1 =
      [.done, .next (some 1), .next (some 1), .done, .removed 1] ∧
    ((WaitingList.empty .bestFirst).serveAll shifting).1 =
      [.done, .next (some 1), .next (some 1), .done, .removed 1] ∧
    (((empty .bestFirst).serveAll shifting).2.draw (fourNodes [] []) 3) = [1, 2] ∧
    ((((WaitingList.empty .bestFirst).serveAll shifting).2.entries.filter fun e =>
      ((fourNodes [] []).node e.node).isPending).take 3).map (·.node) = [1, 2] := by
  have hbounds : ∀ m ∈ shifting, ∀ h, (m.tree.node h).lowerBound ≠ .undefined := by
    have hknown : ∀ m ∈ shifting, ∀ h < m.tree.records.size,
        (m.tree.node h).lowerBound ≠ .undefined := by
      decide +kernel
    intro m hm h
    by_cases hlt : h < m.tree.records.size
    · exact hknown m hm h hlt
    · rw [Tree.node_of_ge (Nat.le_of_not_lt hlt)]
      nofun
  have hreplies : ((empty .bestFirst).serveAll shifting).1 =
      [.done, .next (some 1), .next (some 1), .done, .removed 1] := by
    decide +kernel
  have hdraw : ((empty .bestFirst).serveAll shifting).2.draw (fourNodes [] []) 3 = [1, 2] := by
    decide +kernel
  obtain ⟨hsame, -, -, -, huses⟩ := serves_as_waiting_list .bestFirst hbounds
  obtain ⟨-, -, -, -, -, -, hdrawn⟩ := huses (fourNodes [] [])
  exact ⟨hbounds, hreplies, hsame.symm.trans hreplies, hdraw, (hdrawn 3).symm.trans hdraw⟩

end OpenQueue

end TourSearch
