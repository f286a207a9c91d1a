import TourSearch.Proofs.Lineage
import TourSearch.Proofs.OpenQueue
import TourSearch.Proofs.Search.Context
import TourSearch.Proofs.Search.Node
import Mathlib

/-!
The account of the open nodes. The tree and the queue both know which nodes are open, and every step
changes them apart from each other: branching, pruning by bound, pruning the queue, taking out a
node. They always agree. Between two nodes the queue holds the pending nodes of the tree and no
others, each once (`Ledger.waiting`); the node in hand is the only one that is being processed, and
no node is taken up twice.
-/

namespace TourSearch

open Numeric

theorem Node.isProcessed_iff {α μ : Type} {n : Node α μ} :
    n.isProcessed = true ↔ n.isPending = false ∧ n.status ≠ .processing := by
  unfold Node.isProcessed Node.isPending
  cases n.status <;> decide

/-! ### The nodes of a tree in the order of their creation -/

namespace Tree

variable {α μ : Type} [Scalar α] {t t' : Tree α μ}

def pending (t : Tree α μ) : List Handle := t.arena.values.filter fun h => (t.node h).isPending

structure Listed (t : Tree α μ) : Prop where
  size_eq : t.records.size = t.nextId
  arena_eq : t.arena.entries = (List.range t.records.size).map fun h : Nat => ((h : Int), h)

theorem Listed.pending_eq (ht : t.Listed) :
    t.pending = (List.range t.records.size).filter fun h => (t.node h).isPending := by
  have hvalues : t.arena.values = List.range t.records.size := by
    rw [Mapping.values, ht.arena_eq, List.map_map]
    exact List.map_id _
  rw [pending, hvalues]

theorem Listed.mem_pending (ht : t.Listed) {h : Handle} :
    h ∈ t.pending ↔ h < t.records.size ∧ (t.node h).isPending = true := by
  rw [ht.pending_eq, List.mem_filter, List.mem_range]

theorem Listed.nodup_pending (ht : t.Listed) : t.pending.Nodup := by
  rw [ht.pending_eq]
  exact List.nodup_range.filter _

omit [Scalar α] in
theorem Listed.congr (ht : t.Listed) (hsize : t'.records.size = t.records.size)
    (hnext : t'.nextId = t.nextId) (harena : t'.arena = t.arena) : t'.Listed :=
  ⟨by rw [hsize, hnext, ht.size_eq], by rw [harena, hsize, ht.arena_eq]⟩

theorem listed_initial : (initial : Tree α μ).Listed := ⟨rfl, rfl⟩

omit [Scalar α] in
theorem Listed.register (ht : t.Listed) (n : Node α μ) : (t.register n).2.Listed := by
  have hfresh : ∀ l : List Nat, t.nextId ∉ l →
      Mapping.putEntry (t.nextId : Int) t.records.size (l.map fun h : Nat => ((h : Int), h)) =
        l.map (fun h : Nat => ((h : Int), h)) ++ [((t.nextId : Int), t.records.size)] := by
    intro l hl
    induction l with
    | nil => rfl
    | cons h l ih =>
        rw [List.mem_cons, not_or] at hl
        have hne : ¬((h : Int) = t.nextId) := fun heq => hl.1 (Int.ofNat_inj.mp heq).symm
        rw [List.map_cons, Mapping.putEntry, if_neg hne, ih hl.2, List.cons_append]
  have hnew : t.nextId ∉ List.range t.records.size := by
    rw [List.mem_range, ht.size_eq]
    exact Nat.lt_irrefl _
  refine ⟨by simp [Tree.register, ht.size_eq], ?_⟩
  show Mapping.putEntry (t.nextId : Int) t.records.size t.arena.entries = _
  rw [ht.arena_eq, hfresh _ hnew]
  simp [Tree.register, List.range_succ, ht.size_eq]

theorem Listed.createEach (ht : t.Listed) (parent : Handle) (ds : List (Decision μ)) :
    (t.createEach parent ds).2.Listed := by
  induction ds generalizing t with
  | nil => exact ht
  | cons d ds ih => exact ih ((ht.register _).congr (size_modify _ _ _) rfl rfl)

theorem Listed.createChildren (ht : t.Listed) (parent : Handle) (ds : List (Decision μ)) :
    (t.createChildren parent ds).2.Listed :=
  (ht.createEach parent ds).congr (size_markProcessed _ _ _) rfl rfl

theorem Branched.pending_eq {parent : Nat} {ds : List (Decision μ)} {hs : List Handle}
    (hb : Branched t parent ds hs t') (ht : t.Listed) (ht' : t'.Listed)
    (hclosed : (t.node parent).isPending = false) : t'.pending = t.pending ++ hs := by
  obtain ⟨children, hself⟩ := hb.self
  have hold : ∀ k ∈ List.range t.records.size,
      (t'.node k).isPending = (t.node k).isPending := by
    intro k hk
    by_cases hparent : k = parent
    · rw [hparent, hself, hclosed]
      rfl
    · rw [hb.old k (List.mem_range.mp hk) hparent]
  have hnew : ∀ k ∈ hs, (t'.node k).isPending = true := by
    intro k hk
    rw [hb.handles] at hk
    obtain ⟨i, hi, rfl⟩ := List.mem_map.mp hk
    rw [hb.new i _ (List.getElem?_eq_getElem (List.mem_range.mp hi))]
    rfl
  rw [ht.pending_eq, ht'.pending_eq, hb.size_eq, List.range_add, List.filter_append, ← hb.handles,
    List.filter_eq_self.mpr hnew, List.filter_congr hold]

/-! ### How many nodes have been closed -/

theorem processed_markProcessed (t : Tree α μ) (h : Handle) (status : NodeStatus) :
    (t.markProcessed h status).stats.processed =
      t.stats.processed + if (t.node h).status.isOpen then 1 else 0 := by
  unfold markProcessed
  cases status <;> split <;> rfl

theorem processed_createEach (t : Tree α μ) (parent : Handle) (ds : List (Decision μ)) :
    (t.createEach parent ds).2.stats.processed = t.stats.processed := by
  induction ds generalizing t with
  | nil => rfl
  | cons d ds ih => exact ih _

theorem pruneEach_keeps (t : Tree α μ) (hs : List Handle) :
    (t.pruneEach hs).2.arena = t.arena ∧
      (t.pruneEach hs).2.stats.processed = t.stats.processed := by
  induction hs generalizing t with
  | nil => exact ⟨rfl, rfl⟩
  | cons h hs ih =>
      obtain ⟨harena, hprocessed⟩ := ih (t.pruneOne h).2
      refine ⟨harena.trans ?_, hprocessed.trans ?_⟩
      · unfold pruneOne
        dsimp only
        split <;> rfl
      · unfold pruneOne
        dsimp only
        split <;> rfl

end Tree

/-! ### The queue by its nodes -/

namespace OpenQueue

variable {μ : Type} {q q' : OpenQueue Extended} {t : Tree Extended μ} {h : Handle}

theorem handles_add (hpending : (t.node h).isPending = true) :
    (q.add t h).handles.Perm (h :: q.handles) :=
  (entries_add_of_pending hpending).map Waiting.node

theorem handles_addAll {hs : List Handle} (hpending : ∀ h ∈ hs, (t.node h).isPending = true) :
    (q.addAll t hs).handles.Perm (q.handles ++ hs) := by
  induction hs generalizing q with
  | nil => simp [addAll]
  | cons h hs ih =>
      have hfirst : (q.add t h).handles.Perm (h :: q.handles) :=
        handles_add (hpending h List.mem_cons_self)
      have hrest : (q.addAll t (h :: hs)).handles.Perm ((q.add t h).handles ++ hs) :=
        ih fun k hk => hpending k (List.mem_cons_of_mem h hk)
      exact hrest.trans ((hfirst.append_right hs).trans List.perm_middle.symm)

/-- A queue of pending nodes loses nothing but the node that is taken out. -/
theorem Fits.handles_pop (hq : q.Fits t) (hpending : ∀ k ∈ q.handles, (t.node k).isPending = true)
    (hpop : q.pop t = (some h, q')) :
    q'.Fits t ∧ (t.node h).isPending = true ∧ h < t.records.size ∧
      q.handles.Perm (h :: q'.handles) := by
  obtain ⟨hfits, hfirst, e, dropped, rfl, hperm, hclosed⟩ := hq.pop_some hpop
  have hnone : dropped = [] := by
    rw [List.eq_nil_iff_forall_not_mem]
    intro x hx
    have hwaits : x ∈ q.entries := hperm.mem_iff.mpr (List.mem_append_left _ hx)
    have := hpending x.node (List.mem_map_of_mem hwaits)
    rw [hclosed x hx] at this
    cases this
  rw [hnone, List.nil_append] at hperm
  exact ⟨hfits, hfirst, hq.known e (hperm.mem_iff.mpr List.mem_cons_self), hperm.map Waiting.node⟩

theorem handles_prune (hq : q.Fits t) :
    (q.prune t).2.handles.Perm (q.handles.filter fun k => (t.node k).isPending) := by
  have hperm := (q.entries_prune hq).2.map Waiting.node
  rwa [show (fun e : Waiting Extended => (t.node e.node).isPending) =
    (fun k => (t.node k).isPending) ∘ (·.node) from rfl, ← List.filter_map] at hperm

/-! ### The best bound is attained -/

theorem foldl_smaller_mem (l : List Extended) (x : Extended) :
    l.foldl Scalar.smaller x ∈ x :: l := by
  induction l generalizing x with
  | nil => exact List.mem_singleton.mpr rfl
  | cons y l ih =>
      rw [List.foldl_cons, Scalar.smaller]
      split
      · exact List.mem_cons_of_mem x (ih y)
      · rcases List.mem_cons.mp (ih x) with heq | hmem
        · rw [heq]
          exact List.mem_cons_self
        · exact List.mem_cons_of_mem x (List.mem_cons_of_mem y hmem)

theorem least_mem {l : List Extended} (hl : l ≠ []) : least l ∈ l := by
  cases l with
  | nil => exact absurd rfl hl
  | cons x l => exact foldl_smaller_mem l x

theorem Fits.bestBound_mem (hq : q.Fits t)
    (hpending : ∀ k ∈ q.handles, (t.node k).isPending = true) (hne : q.handles ≠ []) :
    ∃ k ∈ q.handles, q.bestBound t = (t.node k).lowerBound := by
  have hleast : ∃ k ∈ q.handles,
      least (q.heap.toList.map fun e => (t.node e.node).lowerBound) = (t.node k).lowerBound := by
    have hmem := least_mem (l := q.heap.toList.map fun e => (t.node e.node).lowerBound)
      (by simpa [handles] using hne)
    obtain ⟨e, he, heq⟩ := List.mem_map.mp hmem
    exact ⟨e.node, List.mem_map_of_mem he, heq.symm⟩
  cases hrule : q.rule with
  | bestFirst =>
      cases hmin : q.heap.min? with
      | none =>
          rw [handles, Heap.min?_eq_none_iff.mp hmin] at hne
          exact absurd rfl hne
      | some first =>
          have hfirst : first ∈ q.entries :=
            (Heap.toList_dropMin Waiting.before hmin).mem_iff.mpr List.mem_cons_self
          have hmem : first.node ∈ q.handles := List.mem_map_of_mem hfirst
          refine ⟨first.node, hmem, ?_⟩
          rw [← hq.bounds hrule first hfirst (hpending _ hmem)]
          simp [bestBound, hrule, hmin]
  | depthFirst => simpa only [bestBound, hrule] using hleast
  | breadthFirst => simpa only [bestBound, hrule] using hleast

end OpenQueue

/-! ### The account -/

namespace Search

variable {μ σ : Type} {p : Problem Extended μ σ} {config : SearchConfig Extended}
  {start run run' : Run Extended μ σ} {visited : List Handle} {h : Handle}

def Place.hand {α : Type} : Place α → Option Handle
  | .moving h | .solving h _ | .closing h _ => some h
  | .between | .closed _ | .ended => none

def Place.visit {α : Type} (visited : List Handle) : Place α → List Handle
  | .moving h => visited ++ [h]
  | .between | .solving .. | .closing .. | .closed _ | .ended => visited

/-- The places and states that a search comes to, with the nodes taken up on the way in order. -/
inductive Visits {α μ σ : Type} [Scalar α] (p : Problem α μ σ) (config : SearchConfig α)
    (start : Run α μ σ) : List Handle → Place α → Run α μ σ → Prop where
  | start : Visits p config start [] .between start
  | step {visited : List Handle} {place place' : Place α} {run run' : Run α μ σ}
      (before : Visits p config start visited place run)
      (next : (advance p config place).Gives run place' run') :
      Visits p config start (place'.visit visited) place' run'

theorem Reaches.visits {place : Place Extended} (hreached : Reaches p config start place run) :
    ∃ visited, Visits p config start visited place run := by
  induction hreached with
  | start => exact ⟨[], .start⟩
  | step _ next ih =>
      obtain ⟨visited, hvisits⟩ := ih
      exact ⟨_, hvisits.step next⟩

/-- The queue holds the pending nodes, the node in hand is the one that is being processed, and the
counters tell how many nodes were taken up. -/
structure Ledger (visited : List Handle) (hand : Option Handle) (run : Run Extended μ σ) :
    Prop where
  listed : run.tree.Listed
  bounded : ∀ k, (run.tree.node k).lowerBound ≠ .undefined
  fits : run.queue.Fits run.tree
  waiting : run.queue.handles.Perm run.tree.pending
  processing : ∀ k, (run.tree.node k).status = .processing ↔ hand = some k
  explored : run.explored = visited.length
  processed : run.tree.stats.processed + hand.toList.length = visited.length
  once : visited.Nodup
  closed : ∀ k ∈ visited, (run.tree.node k).isPending = false

theorem Ledger.isPending (hl : Ledger visited hand run) {k : Handle}
    (hk : k ∈ run.queue.handles) : (run.tree.node k).isPending = true :=
  (hl.listed.mem_pending.mp (hl.waiting.mem_iff.mp hk)).2

theorem Ledger.congr (hl : Ledger visited hand run) (htree : run'.tree = run.tree)
    (hqueue : run'.queue = run.queue) (hexplored : run'.explored = run.explored) :
    Ledger visited hand run' :=
  ⟨htree ▸ hl.listed, htree ▸ hl.bounded, by rw [htree, hqueue]; exact hl.fits,
    by rw [htree, hqueue]; exact hl.waiting, htree ▸ hl.processing, hexplored.trans hl.explored,
    htree ▸ hl.processed, hl.once, htree ▸ hl.closed⟩

/-! ### Taking up a node -/

theorem Ledger.take (hl : Ledger visited none run) {q : OpenQueue Extended}
    (hpop : run.queue.pop run.tree = (some h, q)) :
    Ledger (visited ++ [h]) (some h) { run with
      explored := run.explored + 1
      queue := q
      tree := run.tree.modify h fun n => { n with status := .processing } } := by
  obtain ⟨hfits, hpending, hlt, hperm⟩ := hl.fits.handles_pop (fun _ => hl.isPending) hpop
  have hself := run.tree.node_modify_self hlt fun n => { n with status := .processing }
  have hothers : ∀ k, k ≠ h → (run.tree.modify h fun n => { n with status := .processing }).node k =
      run.tree.node k := fun k hk => run.tree.node_modify_of_ne hk _
  have hlisted : (run.tree.modify h fun n => { n with status := .processing }).Listed :=
    hl.listed.congr (Tree.size_modify _ _ _) rfl rfl
  have hleft : q.handles.Perm
      (run.tree.modify h fun n => { n with status := .processing }).pending := by
    -- The node has left both lists, in which it stood once.
    have hnodup : (h :: q.handles).Nodup :=
      hperm.nodup_iff.mp (hl.waiting.nodup_iff.mpr hl.listed.nodup_pending)
    refine (List.perm_ext_iff_of_nodup hnodup.of_cons hlisted.nodup_pending).mpr fun k => ?_
    rw [hlisted.mem_pending, Tree.size_modify]
    by_cases hk : k = h
    · rw [hk, hself]
      exact ⟨fun hmem => absurd hmem (List.nodup_cons.mp hnodup).1, fun hwaits => by
        cases hwaits.2⟩
    · rw [hothers k hk, ← hl.listed.mem_pending, ← hl.waiting.mem_iff, hperm.mem_iff,
        List.mem_cons]
      exact ⟨Or.inr, fun hmem => hmem.resolve_left hk⟩
  have hnew : h ∉ visited := fun hmem => by
    have := hl.closed h hmem
    rw [hpending] at this
    cases this
  refine ⟨hlisted, fun k => ?_, hfits.of_tree (Tree.size_modify _ _ _).ge fun k _ hwaits => ?_,
    hleft, fun k => ?_, ?_, ?_, ?_, fun k hk => ?_⟩
  · by_cases hkh : k = h
    · rw [hkh, hself]
      exact hl.bounded h
    · rw [hothers k hkh]
      exact hl.bounded k
  · by_cases hkh : k = h
    · rw [hkh, hself] at hwaits
      cases hwaits
    · rw [hothers k hkh] at hwaits ⊢
      exact ⟨hwaits, rfl⟩
  · by_cases hkh : k = h
    · rw [hkh, hself]
      exact iff_of_true rfl rfl
    · rw [hothers k hkh, hl.processing k, Option.some.injEq]
      exact iff_of_false (by simp) fun heq => hkh heq.symm
  · rw [List.length_append, hl.explored]
    rfl
  · rw [List.length_append, ← hl.processed]
    rfl
  · rw [List.nodup_append]
    refine ⟨hl.once, List.nodup_singleton h, ?_⟩
    rintro a ha b hb rfl
    exact hnew (List.mem_singleton.mp hb ▸ ha)
  · by_cases hkh : k = h
    · rw [hkh, hself]
      rfl
    · rw [hothers k hkh]
      rcases List.mem_append.mp hk with hk | hk
      · exact hl.closed k hk
      · exact absurd (List.mem_singleton.mp hk) hkh

/-! ### Closing a node -/

/-- The node in hand changes, and no other: it stays in hand, or it is closed and counted. -/
theorem Ledger.change (hl : Ledger visited (some h) run) {t : Tree Extended μ}
    {hand : Option Handle} (hlisted : t.Listed) (hsize : t.records.size = run.tree.records.size)
    (hothers : ∀ k, k ≠ h → t.node k = run.tree.node k)
    (hbound : (t.node h).lowerBound ≠ .undefined)
    (hself : (t.node h).status = .processing ∧ hand = some h ∨
      (t.node h).status.isOpen = false ∧ hand = none)
    (hprocessed : t.stats.processed + hand.toList.length = run.tree.stats.processed + 1) :
    Ledger visited hand { run with tree := t } := by
  have hbefore : (run.tree.node h).isPending = false := by
    rw [Node.isPending, (hl.processing h).mpr rfl]
    rfl
  have hafter : (t.node h).isPending = false := by
    rcases hself with ⟨hstatus, -⟩ | ⟨hstatus, -⟩
    · rw [Node.isPending, hstatus]
      rfl
    · rw [Bool.eq_false_iff, Ne, Node.isPending_iff]
      intro hpending
      rw [hpending] at hstatus
      cases hstatus
  have hsame : ∀ k, (t.node k).isPending = (run.tree.node k).isPending := by
    intro k
    by_cases hk : k = h
    · rw [hk, hbefore, hafter]
    · rw [hothers k hk]
  refine ⟨hlisted, fun k => ?_, hl.fits.of_tree hsize.ge fun k _ hwaits => ?_, ?_, fun k => ?_,
    hl.explored, hprocessed.trans hl.processed, hl.once, fun k hk => ?_⟩
  · by_cases hk : k = h
    · exact hk ▸ hbound
    · rw [hothers k hk]
      exact hl.bounded k
  · have hk : k ≠ h := by
      rintro rfl
      rw [hafter] at hwaits
      cases hwaits
    rw [← hsame k, hothers k hk]
    exact ⟨hothers k hk ▸ hwaits, rfl⟩
  · rw [hlisted.pending_eq, hsize, List.filter_congr fun k _ => hsame k, ← hl.listed.pending_eq]
    exact hl.waiting
  · by_cases hk : k = h
    · rw [hk]
      rcases hself with ⟨hstatus, hhand⟩ | ⟨hstatus, hhand⟩
      · exact iff_of_true hstatus hhand
      · refine iff_of_false (fun hprocessing => ?_) (by simp [hhand])
        rw [hprocessing] at hstatus
        cases hstatus
    · have hne : hand ≠ some k := by
        rcases hself with ⟨-, hhand⟩ | ⟨-, hhand⟩
        · rw [hhand]
          exact fun heq => hk (Option.some.inj heq).symm
        · simp [hhand]
      rw [hothers k hk, hl.processing k, Option.some.injEq]
      exact iff_of_false (fun heq => hk heq.symm) hne
  · rw [hsame k]
    exact hl.closed k hk

theorem Ledger.hand_lt (hl : Ledger visited (some h) run) : h < run.tree.records.size :=
  Tree.lt_of_status (by simp [(hl.processing h).mpr rfl])

theorem Ledger.modify (hl : Ledger visited (some h) run) {f : Node Extended μ → Node Extended μ}
    (hstatus : (f (run.tree.node h)).status = (run.tree.node h).status)
    (hbound : (f (run.tree.node h)).lowerBound ≠ .undefined) :
    Ledger visited (some h) { run with tree := run.tree.modify h f } := by
  have hself := run.tree.node_modify_self hl.hand_lt f
  refine hl.change (hl.listed.congr (Tree.size_modify _ _ _) rfl rfl) (Tree.size_modify _ _ _)
    (fun k hk => run.tree.node_modify_of_ne hk f) ?_ (Or.inl ⟨?_, rfl⟩) rfl
  · rw [hself]
    exact hbound
  · rw [hself, hstatus]
    exact (hl.processing h).mpr rfl

theorem Ledger.mark (hl : Ledger visited (some h) run) {status : NodeStatus}
    (hstatus : status.isOpen = false) :
    Ledger visited none { run with tree := run.tree.markProcessed h status } := by
  have hself : (run.tree.markProcessed h status).node h = { run.tree.node h with status } :=
    run.tree.node_modify_self hl.hand_lt _
  refine hl.change (hl.listed.congr (Tree.size_markProcessed _ _ _) rfl rfl)
    (Tree.size_markProcessed _ _ _) (fun k hk => run.tree.node_modify_of_ne hk _) ?_
    (Or.inr ⟨?_, rfl⟩) ?_
  · rw [hself]
    exact hl.bounded h
  · rw [hself]
    exact hstatus
  · rw [Tree.processed_markProcessed, (hl.processing h).mpr rfl]
    rfl

theorem Ledger.setIncumbent (hl : Ledger visited none run) (k : Handle) :
    Ledger visited none { run with tree := run.tree.setIncumbent k } :=
  ⟨hl.listed.congr rfl rfl rfl, hl.bounded,
    hl.fits.of_tree (Nat.le_refl _) fun _ _ hwaits => ⟨hwaits, rfl⟩, hl.waiting, hl.processing,
    hl.explored, hl.processed, hl.once, hl.closed⟩

/-- Pruning the tree and then the queue takes the same nodes out of both. -/
theorem Ledger.prune (hl : Ledger visited none run) :
    Ledger visited none { run with
      tree := run.tree.pruneByBound.2
      queue := (run.queue.prune run.tree.pruneByBound.2).2 } := by
  have hpruned := Tree.pruned_pruneByBound run.tree
  obtain ⟨harena, hprocessed⟩ := run.tree.pruneEach_keeps run.tree.arena.values
  have hlisted : run.tree.pruneByBound.2.Listed :=
    hl.listed.congr hpruned.size_eq hpruned.nextId_eq harena
  have hless : ∀ k, (run.tree.pruneByBound.2.node k).isPending = true →
      (run.tree.node k).isPending = true ∧
        (run.tree.pruneByBound.2.node k).lowerBound = (run.tree.node k).lowerBound := by
    intro k hwaits
    rcases hpruned.nodes k with heq | ⟨-, -, heq⟩
    · rw [heq] at hwaits ⊢
      exact ⟨hwaits, rfl⟩
    · rw [heq] at hwaits
      cases hwaits
  have hfits : run.queue.Fits run.tree.pruneByBound.2 :=
    hl.fits.of_tree hpruned.size_eq.ge fun k _ => hless k
  have hwaiting : (run.queue.handles.filter fun k =>
      (run.tree.pruneByBound.2.node k).isPending).Perm run.tree.pruneByBound.2.pending := by
    refine (hl.waiting.filter _).trans (.of_eq ?_)
    rw [hl.listed.pending_eq, hlisted.pending_eq, hpruned.size_eq, List.filter_filter]
    refine List.filter_congr fun k _ => ?_
    cases hk : (run.tree.pruneByBound.2.node k).isPending with
    | false => rfl
    | true => rw [(hless k hk).1]; rfl
  refine ⟨hlisted, fun k => ?_, (run.queue.entries_prune hfits).1,
    (OpenQueue.handles_prune hfits).trans hwaiting, fun k => ?_, hl.explored,
    hprocessed ▸ hl.processed, hl.once, fun k hk => ?_⟩
  · rcases hpruned.nodes k with heq | ⟨-, -, heq⟩
    · rw [heq]
      exact hl.bounded k
    · rw [heq]
      exact hl.bounded k
  · rcases hpruned.nodes k with heq | ⟨-, -, heq⟩
    · rw [heq]
      exact hl.processing k
    · rw [heq]
      exact iff_of_false (by simp) (by simp)
  · rw [Bool.eq_false_iff]
    intro hwaits
    have := hl.closed k hk
    rw [(hless k hwaits).1] at this
    cases this

/-- The children of the node in hand enter the tree and the queue, and the node is closed. -/
theorem Ledger.branch (hl : Ledger visited (some h) run) (ds : List (Decision μ)) :
    Ledger visited none (branched run h ds) := by
  have hb := Tree.branched_createChildren hl.hand_lt ds
  have hlisted := hl.listed.createChildren h ds
  have hstatus : (run.tree.node h).status = .processing := (hl.processing h).mpr rfl
  have hclosed : (run.tree.node h).isPending = false := by
    rw [Node.isPending, hstatus]
    rfl
  have hpending := hb.pending_eq hl.listed hlisted hclosed
  have hnew : ∀ k ∈ (run.tree.createChildren h ds).1,
      k < (run.tree.createChildren h ds).2.records.size ∧
        ((run.tree.createChildren h ds).2.node k).isPending = true := fun k hk =>
    hlisted.mem_pending.mp (hpending ▸ List.mem_append_right _ hk)
  have hbounded : ∀ k, ((run.tree.createChildren h ds).2.node k).lowerBound ≠ .undefined := by
    intro k
    rcases hb.cases k with ⟨-, -, -, heq⟩ | ⟨i, d, -, -, heq⟩ | ⟨-, heq⟩
    · rw [heq]
      exact hl.bounded k
    · rw [heq]
      exact hl.bounded h
    · rw [heq]
      simp [Node.blank]
  have hfits : run.queue.Fits (run.tree.createChildren h ds).2 := by
    refine hl.fits.of_tree (by rw [hb.size_eq]; exact Nat.le_add_right _ _) fun k hk hwaits => ?_
    have hkh : k ≠ h := by
      rintro rfl
      obtain ⟨children, hself⟩ := hb.self
      rw [hself] at hwaits
      cases hwaits
    rw [hb.old k hk hkh] at hwaits ⊢
    exact ⟨hwaits, rfl⟩
  have hstatuses : ∀ k, ((run.tree.createChildren h ds).2.node k).status ≠ .processing := by
    intro k
    by_cases hk : k < run.tree.records.size
    · by_cases hkh : k = h
      · obtain ⟨children, hself⟩ := hb.self
        rw [hkh, hself]
        simp
      · rw [hb.old k hk hkh, Ne, hl.processing k, Option.some.injEq]
        exact fun heq => hkh heq.symm
    · rcases hb.cases k with ⟨hlt, -⟩ | ⟨i, d, -, -, heq⟩ | ⟨-, heq⟩
      · exact absurd hlt hk
      · rw [heq]
        simp [Tree.childOf, Node.blank]
      · rw [heq]
        simp [Node.blank]
  refine ⟨hlisted, hbounded, hfits.addAll (fun k hk => (hnew k hk).1) fun k _ => hbounded k, ?_,
    fun k => iff_of_false (hstatuses k) (by simp), hl.explored, ?_, hl.once, fun k hk => ?_⟩
  · refine (OpenQueue.handles_addAll fun k hk => (hnew k hk).2).trans ?_
    refine (hl.waiting.append_right _).trans (.of_eq ?_)
    exact hpending.symm
  · show ((run.tree.createEach h ds).2.markProcessed h .branched).stats.processed + 0 = _
    obtain ⟨children, hself⟩ := (Tree.spawned_createEach hl.hand_lt ds).self
    rw [Tree.processed_markProcessed, Tree.processed_createEach, hself, hstatus, ← hl.processed]
    rfl
  · have hlt : k < run.tree.records.size :=
      Tree.lt_of_status (by simpa [Node.isPending] using hl.closed k hk)
    by_cases hkh : k = h
    · obtain ⟨children, hself⟩ := hb.self
      show ((run.tree.createChildren h ds).2.node k).isPending = false
      rw [hkh, hself]
      rfl
    · show ((run.tree.createChildren h ds).2.node k).isPending = false
      rw [hb.old k hlt hkh]
      exact hl.closed k hk

theorem Ledger.close (hl : Ledger visited (some h) run) {answer : Answer Extended}
    (hcloses : Closes p config h run answer run') : Ledger visited none run' := by
  have hsolved (z : Extended) :
      Ledger visited (some h) { run with tree := solvedTree run.tree h z } :=
    hl.modify rfl (larger_ne_undefined (hl.bounded h))
  cases hcloses with
  | infeasible => exact hl.mark rfl
  | @hopeless z _ _ => exact (hsolved z).mark rfl
  | @incumbent z values _ _ =>
      have hintegral := (hsolved z).modify
        (f := fun n => { n with isInteger := true, solution := values }) rfl ((hsolved z).bounded h)
      have hmarked := hintegral.mark (show NodeStatus.integer.isOpen = false from rfl)
      exact (hmarked.setIncumbent h).prune.congr rfl rfl rfl
  | @givenUp z _ _ _ _ _ _ _ => exact ((hsolved z).mark rfl).congr rfl rfl rfl
  | @branched z _ _ c world _ _ _ _ =>
      have hsolved' : Ledger visited (some h)
          { run with tree := solvedTree run.tree h z, world } := (hsolved z).congr rfl rfl rfl
      exact hsolved'.branch c.decisions

/-! ### Whole searches -/

/-- What is done after a node leaves the tree alone. -/
def KeepsTree {α μ σ : Type} (p : Problem α μ σ) : Prop :=
  ∀ {h t t' w w'}, (p.afterNode h).Gives (t, w) () (t', w') → t' = t

theorem KeepsTree.keepsDescent {α σ : Type} [Scalar α] {p : Problem α Move σ}
    (hafter : KeepsTree p) : KeepsDescent p := fun after => hafter after ▸ Tree.Continues.refl _

theorem Ledger.advance {place place' : Place Extended} (hl : Ledger visited place.hand run)
    (hafter : KeepsTree p) (next : (Search.advance p config place).Gives run place' run') :
    Ledger (place'.visit visited) place'.hand run' := by
  cases moves_of_gives next with
  | done => exact hl
  | drained popped =>
      -- Nothing is pending when no node can be taken out, and the queue is left empty.
      obtain ⟨hfits, hempty, hclosed⟩ := hl.fits.pop_none popped
      have hnone : run.queue.handles = [] := by
        rw [List.eq_nil_iff_forall_not_mem]
        intro k hk
        obtain ⟨e, he, rfl⟩ := List.mem_map.mp hk
        have := hl.isPending hk
        rw [hclosed e he] at this
        cases this
      refine ⟨hl.listed, hl.bounded, hfits, ?_, hl.processing, hl.explored, hl.processed, hl.once,
        hl.closed⟩
      have hhandles : OpenQueue.handles _ = [] := congrArg (List.map Waiting.node) hempty
      rw [hhandles, ← hnone]
      exact hl.waiting
  | taken popped kept => exact (hl.take popped).congr kept.tree kept.queue kept.explored
  | moved move =>
      obtain ⟨trail, world, -, rfl⟩ := gives_goTo.mp move
      exact hl.congr rfl rfl rfl
  | again round =>
      obtain ⟨hkept, -, -⟩ := rounds_of_gives round
      exact hl.congr hkept.tree hkept.queue hkept.explored
  | answered round =>
      obtain ⟨hkept, -, -⟩ := rounds_of_gives round
      exact hl.congr hkept.tree hkept.queue hkept.explored
  | closed close => exact hl.close (closes_of_gives close)
  | returned after =>
      obtain rfl := hafter after
      exact hl.congr rfl rfl rfl
  | rested => exact hl

theorem ledger_outset (s : Solver Extended μ σ) : Ledger [] none (outset s) := by
  have hroot : Tree.root < (Tree.initial : Tree Extended μ).records.size := Nat.one_pos
  have hbounded : ∀ k, ((Tree.initial : Tree Extended μ).node k).lowerBound ≠ .undefined := by
    intro k
    rw [Tree.node_initial]
    simp [Node.blank]
  refine ⟨Tree.listed_initial, hbounded, (OpenQueue.fits_clear _ _).add hroot (hbounded _),
    OpenQueue.handles_add rfl, fun k => ?_, rfl, rfl, List.nodup_nil, by simp⟩
  refine iff_of_false ?_ (by simp)
  show ((Tree.initial : Tree Extended μ).node k).status ≠ .processing
  rw [Tree.node_initial]
  simp [Node.blank]

theorem Visits.ledger {place : Place Extended} (hvisits : Visits p config start visited place run)
    (hafter : KeepsTree p) (hstart : Ledger [] none start) : Ledger visited place.hand run := by
  induction hvisits with
  | start => exact hstart
  | step _ next ih => exact ih.advance hafter next

/-- The least bound of the pending nodes, which is infinite if there are none. -/
def LeastPending (t : Tree Extended μ) (bound : Extended) : Prop :=
  (t.pending = [] ∧ bound = .infinity) ∨
    ((∃ h ∈ t.pending, bound = (t.node h).lowerBound) ∧
      ∀ h ∈ t.pending, bound ≤ (t.node h).lowerBound)

theorem Ledger.leastPending (hl : Ledger visited hand run) :
    LeastPending run.tree (run.queue.bestBound run.tree) := by
  by_cases hempty : run.queue.handles = []
  · have hheap : run.queue.heap.toList = [] := List.map_eq_nil_iff.mp hempty
    refine Or.inl ⟨?_, ?_⟩
    · exact List.nil_perm.mp (hempty ▸ hl.waiting)
    · cases hrule : run.queue.rule with
      | bestFirst => simp [OpenQueue.bestBound, hrule, Heap.min?_eq_none_iff.mpr hheap]
      | depthFirst => simp [OpenQueue.bestBound, hrule, hheap, OpenQueue.least]
      | breadthFirst => simp [OpenQueue.bestBound, hrule, hheap, OpenQueue.least]
  · obtain ⟨k, hk, hbound⟩ := hl.fits.bestBound_mem (fun _ => hl.isPending) hempty
    refine Or.inr ⟨⟨k, hl.waiting.mem_iff.mp hk, hbound⟩, fun j hj => ?_⟩
    have hmem := hl.waiting.mem_iff.mpr hj
    obtain ⟨e, he, rfl⟩ := List.mem_map.mp hmem
    exact (hl.fits.bestBound_le hl.bounded).2 e he (hl.isPending hmem)

/-- Whenever a search is about to choose a node, its queue holds the pending nodes of the tree and
no others, each once, and no node is being processed. The nodes taken up so far are all different
and closed; there are as many as were explored and as the tree has counted. The best bound of the
queue is the least bound of the pending nodes. This holds for all relaxations, ways to branch, modes
for cuts and rules for the order of the nodes, whatever the queue held before. -/
theorem open_nodes_accounted (s : Solver Extended μ σ) (hafter : KeepsTree s.problem)
    (timeLimit : Option Extended) (nodeLimit : Option Int)
    (hreached : Reaches s.problem (Solver.limited s.config timeLimit nodeLimit) (outset s)
      .between run) :
    run.queue.handles.Perm run.tree.pending ∧ run.queue.handles.Nodup ∧
      (∀ h, (run.tree.node h).status ≠ .processing) ∧
      run.explored = run.tree.stats.processed ∧
      (∃ visited, Visits s.problem (Solver.limited s.config timeLimit nodeLimit) (outset s)
        visited .between run) ∧
      (∀ visited, Visits s.problem (Solver.limited s.config timeLimit nodeLimit) (outset s)
        visited .between run →
          visited.Nodup ∧ visited.length = run.explored ∧
            ∀ h ∈ visited, (run.tree.node h).isProcessed = true) ∧
      LeastPending run.tree (run.queue.bestBound run.tree) := by
  obtain ⟨visited, hvisits⟩ := hreached.visits
  have hl : Ledger visited none run := hvisits.ledger hafter (ledger_outset s)
  have hidle : ∀ h, (run.tree.node h).status ≠ .processing := fun h hprocessing =>
    absurd ((hl.processing h).mp hprocessing) (by simp)
  refine ⟨hl.waiting, hl.waiting.nodup_iff.mpr hl.listed.nodup_pending, hidle,
    hl.explored.trans hl.processed.symm, ⟨visited, hvisits⟩, fun visited' hvisits' => ?_,
    hl.leastPending⟩
  have hl' : Ledger visited' none run := hvisits'.ledger hafter (ledger_outset s)
  exact ⟨hl'.once, hl'.explored.symm, fun h hh =>
    Node.isProcessed_iff.mpr ⟨hl'.closed h hh, hidle h⟩⟩

theorem keepsTree_script {α : Type} [Scalar α] (rules : List (ScriptRule α))
    (acceptance : Acceptance) (strategy : Script.Strategy α) :
    KeepsTree (Script.problem ⟨rules, acceptance, []⟩ strategy) := by
  intro h t t' w w' hgives
  exact (congrArg (fun result => result.2.1) hgives).symm

def leftoverSolver : Solver Extended Move (Stage Extended) :=
  { switchSolver with
    queue := (OpenQueue.empty .bestFirst).add (Tree.initial : Tree Extended Move) Tree.root }

/-- After the root has been branched, its children wait and nothing else does. -/
theorem open_nodes_accounted_leftover :
    leftoverSolver.queue.handles = [Tree.root] ∧
      ∃ run, Reaches leftoverSolver.problem leftoverSolver.config (outset leftoverSolver)
          .between run ∧
        run.tree.pending = [1, 2] ∧ run.queue.handles.Perm [1, 2] ∧
        run.explored = 1 ∧ run.tree.stats.processed = 1 ∧
        LeastPending run.tree (run.queue.bestBound run.tree) ∧
        run.queue.bestBound run.tree = .finite 2 := by
  refine ⟨by decide +kernel, ?_⟩
  -- Five steps lead from the root to the next choice.
  obtain ⟨run, hreached, hpending, hexplored, hbound⟩ : ∃ run, Reaches leftoverSolver.problem
      (Solver.limited leftoverSolver.config none none) (outset leftoverSolver) .between run ∧
      run.tree.pending = [1, 2] ∧ run.explored = 1 ∧
      run.queue.bestBound run.tree = .finite 2 := by
    have hthere : (orbit leftoverSolver.problem leftoverSolver.config (outset leftoverSolver) 5).any
        (fun x => match x with
          | (.between, run) => decide (run.tree.pending = [1, 2] ∧ run.explored = 1 ∧
              run.queue.bestBound run.tree = .finite 2)
          | _ => false) = true := by decide +kernel
    obtain ⟨x, hx, hfacts⟩ := (Option.any_eq_true _ _).mp hthere
    split at hfacts
    · exact ⟨_, reaches_of_mem_orbit hx, of_decide_eq_true hfacts⟩
    · cases hfacts
  obtain ⟨hwaiting, -, -, hprocessed, -, -, hleast⟩ := open_nodes_accounted leftoverSolver
    (keepsTree_script _ _ _) none none hreached
  exact ⟨run, hreached, hpending, hpending ▸ hwaiting, hexplored,
    hprocessed.symm.trans hexplored, hleast, hbound⟩

end Search

end TourSearch
