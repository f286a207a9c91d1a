import TourSearch.Proofs.Search.Context
import TourSearch.Proofs.Search.Node
import Mathlib

/-!
How many nodes a search explores. A search that splits nodes in two, on paths of bounded length,
grows a binary tree of bounded depth. Every node in the queue stands for the nodes that may still
come of it (`worth`), and what is explored together with what the queue stands for never exceeds the
size of the whole tree (`Spends`). At a node, new cuts come to an end because there are only so many
sets of vertices (`card_sets_le`).
-/

namespace TourSearch

open Numeric

/-! ### Sums over the queue -/

namespace OpenQueue

variable {α μ : Type} [Scalar α] {q q' : OpenQueue α} {t : Tree α μ} {size : Nat} {h : Handle}
  {m : Handle → Nat}

def load (q : OpenQueue α) (m : Handle → Nat) : Nat := (q.heap.toList.map fun e => m e.node).sum

omit [Scalar α] in
theorem load_congr (hq : q.Known size) {m' : Handle → Nat} (hm : ∀ k < size, m' k = m k) :
    q.load m' = q.load m :=
  congrArg List.sum (List.map_congr_left fun e he => hm e.node (hq e he))

theorem load_add_le : (q.add t h).load m ≤ q.load m + m h := by
  unfold OpenQueue.add
  dsimp only
  split
  · have hperm := Heap.toList_push Waiting.before q.heap ⟨priorityOf q.rule (t.node h), q.next, h⟩
    have hsum := (hperm.map fun e => m e.node).sum_eq
    rw [List.map_cons, List.sum_cons] at hsum
    rw [load, hsum, Nat.add_comm, load]
  · exact Nat.le_add_right _ _

theorem load_addAll_le (hs : List Handle) : (q.addAll t hs).load m ≤ q.load m + (hs.map m).sum := by
  induction hs generalizing q with
  | nil => exact Nat.le_add_right _ _
  | cons h hs ih =>
      have hfirst : (q.add t h).load m ≤ q.load m + m h := load_add_le
      have hrest : ((q.add t h).addAll t hs).load m ≤ _ := ih
      rw [List.map_cons, List.sum_cons,
        show q.addAll t (h :: hs) = (q.add t h).addAll t hs from rfl]
      omega

theorem sum_dropClosed_le (count : Nat) (heap : Heap (Waiting α)) :
    ((dropClosed t count heap).toList.map fun e => m e.node).sum ≤
      (heap.toList.map fun e => m e.node).sum := by
  induction count generalizing heap with
  | zero => exact Nat.le_refl _
  | succ count ih =>
      unfold dropClosed
      split
      · exact Nat.le_refl _
      · rename_i first hmin
        split
        · exact Nat.le_refl _
        · have hsum := ((Heap.toList_dropMin Waiting.before hmin).map fun e => m e.node).sum_eq
          rw [List.map_cons, List.sum_cons] at hsum
          exact (ih _).trans (by omega)

theorem load_pop {next : Option Handle} (hpop : q.pop t = (next, q')) :
    q'.load m + (next.map m).getD 0 ≤ q.load m := by
  rw [OpenQueue.pop, settle, Prod.mk.injEq] at hpop
  obtain ⟨rfl, rfl⟩ := hpop
  have hle := sum_dropClosed_le (t := t) (m := m) q.heap.size q.heap
  cases hmin : (dropClosed t q.heap.size q.heap).min? with
  | none =>
      have hempty : ¬0 < (dropClosed t q.heap.size q.heap).items.size := by
        simpa [Heap.toList] using Heap.min?_eq_none_iff.mp hmin
      simpa [load, Heap.dropMin, hempty] using hle
  | some first =>
      have hsum := ((Heap.toList_dropMin Waiting.before hmin).map fun e => m e.node).sum_eq
      rw [List.map_cons, List.sum_cons] at hsum
      simp only [load, Option.map_some, Option.getD_some]
      omega

theorem load_prune_le : (q.prune t).2.load m ≤ q.load m := by
  have hperm := Heap.toList_ofList Waiting.before
    (q.heap.toList.filter fun e => (t.node e.node).isPending)
  have hsub : (q.heap.toList.filter fun e => (t.node e.node).isPending).Sublist q.heap.toList :=
    List.filter_sublist
  calc (q.prune t).2.load m
      = ((q.heap.toList.filter fun e => (t.node e.node).isPending).map fun e => m e.node).sum :=
        (hperm.map fun e : Waiting α => m e.node).sum_eq
    _ ≤ q.load m := (hsub.map fun e => m e.node).sum_le_sum fun _ _ => Nat.zero_le _

end OpenQueue

/-! ### How many sets of vertices there are -/

/-- There are no more sets of given vertices than lists of choices among them. -/
theorem card_sets_le {vertices : List Vertex} {sets : Finset VertexSet}
    (hwithin : ∀ s ∈ sets, ∀ v ∈ s, v ∈ vertices) : sets.card ≤ 2 ^ vertices.length := by
  let chosen (s : VertexSet) : Finset Vertex := vertices.toFinset.filter (· ∈ s)
  have hmem : ∀ s ∈ sets, ∀ v, v ∈ s ↔ v ∈ chosen s := by
    intro s hs v
    rw [Finset.mem_filter, List.mem_toFinset]
    exact ⟨fun hv => ⟨hwithin s hs v hv, hv⟩, And.right⟩
  have hinj : Set.InjOn chosen sets := by
    intro s hs s' hs' heq
    refine SortedSet.ext_mem fun v => ?_
    rw [hmem s hs, hmem s' hs', heq]
  calc sets.card
      ≤ vertices.toFinset.powerset.card := Finset.card_le_card_of_injOn chosen
        (fun s _ => Finset.mem_powerset.mpr (Finset.filter_subset _ _)) hinj
    _ = 2 ^ vertices.toFinset.card := Finset.card_powerset _
    _ ≤ 2 ^ vertices.length := Nat.pow_le_pow_right two_pos (List.toFinset_card_le _)

/-! ### What nodes stand for -/

namespace Search

variable {σ : Type} {p : Problem Extended Move σ} {config : SearchConfig Extended}
  {run run' : Run Extended Move σ} {h : Handle} {depth : Nat}

def worth (depth : Nat) (t : Tree Extended Move) (h : Handle) : Nat :=
  2 ^ (depth + 1 - (t.node h).decisions.length) - 1

/-- A node is worth its two children and itself. -/
theorem worth_eq {t t' : Tree Extended Move} {k : Handle}
    (hshort : (t.node h).decisions.length ≤ depth)
    (hchild : (t'.node k).decisions.length = (t.node h).decisions.length + 1) :
    worth depth t h = 2 * worth depth t' k + 1 := by
  unfold worth
  rw [hchild]
  obtain ⟨n, hn⟩ : ∃ n, depth + 1 - (t.node h).decisions.length = n + 1 :=
    ⟨depth - (t.node h).decisions.length, by omega⟩
  have hn' : depth + 1 - ((t.node h).decisions.length + 1) = n := by omega
  rw [hn, hn', Nat.pow_succ]
  have := Nat.one_le_two_pow (n := n)
  omega

theorem worth_pos {t : Tree Extended Move} (hshort : (t.node h).decisions.length ≤ depth) :
    0 < worth depth t h := by
  unfold worth
  have := Nat.one_lt_two_pow (n := depth + 1 - (t.node h).decisions.length) (by omega)
  omega

/-- What is explored and what is open fit into a binary tree. -/
def Spends (depth : Nat) : Place Extended → Run Extended Move σ → Prop
  | .between, run | .closed _, run | .ended, run =>
      run.explored + run.queue.load (worth depth run.tree) < 2 ^ (depth + 1)
  | .moving h, run | .solving h _, run | .closing h _, run =>
      run.explored + run.queue.load (worth depth run.tree) + worth depth run.tree h ≤
        2 ^ (depth + 1)

/-- A node keeps its worth, whatever happens to the tree. -/
theorem worth_continues (depth : Nat) {t t' : Tree Extended Move} (hcontinues : t.Continues t')
    (hlt : h < t.records.size) : worth depth t' h = worth depth t h := by
  rw [worth, worth, hcontinues.decisions_eq hlt]

theorem load_continues (depth : Nat) {t t' : Tree Extended Move} {q : OpenQueue Extended}
    (hcontinues : t.Continues t') (hq : q.Known t.records.size) :
    q.load (worth depth t') = q.load (worth depth t) :=
  OpenQueue.load_congr hq fun _ hk => worth_continues depth hcontinues hk

/-- Branching a node in two adds less than the node was worth. -/
theorem load_branched {t t' : Tree Extended Move} {q : OpenQueue Extended} {d e : Decision Move}
    {children : List Handle} (hb : Tree.Branched t h [d, e] children t')
    (hshort : (t.node h).decisions.length ≤ depth) :
    (q.addAll t' children).load (worth depth t') + 1 ≤
      q.load (worth depth t') + worth depth t h := by
  have hadd := OpenQueue.load_addAll_le (q := q) (t := t') (m := worth depth t') children
  have hworth : ∀ i d', [d, e][i]? = some d' →
      worth depth t h = 2 * worth depth t' (t.records.size + i) + 1 := by
    intro i d' hi
    refine worth_eq hshort ?_
    rw [hb.new i d' hi, Tree.decisions_childOf, List.length_append, List.length_singleton]
  have hfirst := hworth 0 d rfl
  have hsecond := hworth 1 e rfl
  have hchildren : (children.map (worth depth t')).sum =
      worth depth t' (t.records.size + 0) + worth depth t' (t.records.size + 1) := by
    rw [hb.handles]
    simp [List.range_succ]
  -- Together the children are worth one less than the node.
  omega

/-- Closing a node adds less to the queue than the node was worth. -/
theorem Closes.load_lt {answer : Answer Extended} (hcloses : Closes p config h run answer run')
    (hbranching : BranchesOnEdges p config.integralityTolerance)
    (hknown : run.queue.Known run.tree.records.size) (hlt : h < run.tree.records.size)
    (hshort : (run.tree.node h).decisions.length ≤ depth) :
    run'.queue.load (worth depth run'.tree) <
      run.queue.load (worth depth run.tree) + worth depth run.tree h := by
  have hcontinues := (hcloses.continues hlt hknown).1
  have hload := load_continues depth hcontinues hknown
  have hpos := worth_pos hshort
  -- Only branching adds to the queue; otherwise it is enough that a node is worth something.
  cases hcloses with
  | infeasible => exact hload.trans_lt (Nat.lt_add_of_pos_right hpos)
  | hopeless => exact hload.trans_lt (Nat.lt_add_of_pos_right hpos)
  | incumbent =>
      exact OpenQueue.load_prune_le.trans_lt (hload.trans_lt (Nat.lt_add_of_pos_right hpos))
  | givenUp => exact hload.trans_lt (Nat.lt_add_of_pos_right hpos)
  | @branched z values cs c world _ fractional proposed best =>
      obtain ⟨-, c', hbest, e, -, -, -, hdecisions⟩ :=
        splits_of_fractional hbranching fractional proposed
      obtain rfl := Option.some.inj (best.symm.trans hbest)
      have hsolved : run.tree.Continues (solvedTree run.tree h z) :=
        run.tree.continues_modify h fun _ => rfl
      have hb := Tree.branched_createChildren (hlt.trans_le hsolved.size_le) c.decisions
      rw [hdecisions] at hb
      have hshort' : ((solvedTree run.tree h z).node h).decisions.length ≤ depth := by
        rw [hsolved.decisions_eq hlt]
        exact hshort
      have hless := load_branched (q := run.queue) hb hshort'
      rw [← hdecisions, worth_continues depth hsolved hlt] at hless
      rw [← hload]
      exact hless

/-! ### Whole searches -/

/-- Nothing that is done before a node is closed changes what nodes stand for. -/
theorem Spends.kept {place : Place Extended} (hspends : Spends depth place run)
    (htree : run'.tree = run.tree) (hqueue : run'.queue = run.queue)
    (hexplored : run'.explored = run.explored) : Spends depth place run' := by
  cases place <;> simpa only [Spends, htree, hqueue, hexplored] using hspends

/-- Taking a node from the queue to explore it. -/
theorem Spends.take (hspends : Spends depth .between run)
    (hknown : run.queue.Known run.tree.records.size) {q : OpenQueue Extended}
    (hpop : run.queue.pop run.tree = (some h, q)) :
    Spends depth (.moving h) { run with
      explored := run.explored + 1
      queue := q
      tree := run.tree.modify h fun n => { n with status := .processing } } := by
  obtain ⟨hknown', hlt⟩ := hknown.pop hpop
  have hpopped := OpenQueue.load_pop (m := worth depth run.tree) hpop
  have hcontinues : run.tree.Continues
      (run.tree.modify h fun n => { n with status := .processing }) :=
    run.tree.continues_modify h fun _ => rfl
  have hload := load_continues depth hcontinues hknown'
  have hworth := worth_continues depth hcontinues (hlt h rfl)
  simp only [Spends, Option.map_some, Option.getD_some] at hspends hpopped ⊢
  omega

theorem Spends.advance (hbranching : BranchesOnEdges p config.integralityTolerance)
    (hafter : KeepsDescent p) {place place' : Place Extended}
    (hknown : run.queue.Known run.tree.records.size) (hlocated : Located place run)
    (hshort : ∀ k, (run.tree.node k).decisions.length ≤ depth) (hspends : Spends depth place run)
    (next : (Search.advance p config place).Gives run place' run') : Spends depth place' run' := by
  cases moves_of_gives next with
  | done => exact hspends
  | drained popped =>
      have hpopped := OpenQueue.load_pop (m := worth depth run.tree) popped
      exact Nat.lt_of_le_of_lt (Nat.add_le_add_left hpopped _) hspends
  | taken popped kept =>
      -- The worth of the node in hand is counted apart from the queue until the node is closed.
      exact (hspends.take hknown popped).kept kept.tree kept.queue kept.explored
  | moved move =>
      obtain ⟨trail, world, -, rfl⟩ := gives_goTo.mp move
      exact hspends
  | again round =>
      obtain ⟨hkept, -, -⟩ := rounds_of_gives round
      exact hspends.kept hkept.tree hkept.queue hkept.explored
  | answered round =>
      obtain ⟨hkept, -, -⟩ := rounds_of_gives round
      exact hspends.kept hkept.tree hkept.queue hkept.explored
  | @closed _ _ h answer close =>
      have hexplored := (leaves_close (v := (·.explored)) (fun _ _ _ _ => rfl)
        (fun _ _ _ => rfl) answer).of_gives close
      have hload := (closes_of_gives close).load_lt hbranching hknown hlocated (hshort h)
      simp only [Spends] at hspends hexplored ⊢
      omega
  | returned after =>
      have hload := load_continues depth (hafter after) hknown
      simpa only [Spends, hload] using hspends
  | rested => exact hspends

theorem spends_start (depth : Nat) (p : Problem Extended Move σ) (queue : OpenQueue Extended)
    (separator : Separator Extended) (listeners : List String) (world : σ) :
    Spends depth .between (Run.start p queue separator listeners world) := by
  have hload : (queue.clear.add (Tree.initial : Tree Extended Move) Tree.root).load
      (worth depth Tree.initial) ≤ queue.clear.load (worth depth Tree.initial) +
        worth depth Tree.initial Tree.root := OpenQueue.load_add_le
  have hworth : worth depth Tree.initial Tree.root = 2 ^ (depth + 1) - 1 := rfl
  have hempty : queue.clear.load (worth depth Tree.initial) = 0 := rfl
  have hpos := Nat.one_le_two_pow (n := depth + 1)
  show 0 + (queue.clear.add (Tree.initial : Tree Extended Move) Tree.root).load
    (worth depth Tree.initial) < 2 ^ (depth + 1)
  omega

end Search

end TourSearch
