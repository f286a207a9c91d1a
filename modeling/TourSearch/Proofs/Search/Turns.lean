import TourSearch.Proofs.Ancestry
import TourSearch.Proofs.Search.Pruning
import Mathlib

/-!
The open nodes from step to step. What the order of exploration depends on is which nodes are
pending, which one is in hand, and what places and bounds the nodes have. A step leaves all this
alone, or takes up a pending node whose priority comes first, or closes the node in hand, whose
children enter with its bound (`Turn`). That every step is a turn is proved once; whatever a rule
achieves over a whole search follows from what it keeps from turn to turn (`orbit_keeps`).
-/

namespace TourSearch

open Numeric

/-! ### The first entry of the queue -/

/-- A priority that does not come after another one. -/
def Priority.Precedes (a b : Priority Extended) : Prop :=
  a.rank < b.rank ∨ a.rank = b.rank ∧ a.bound ≤ b.bound

theorem Waiting.precedes_of_not_before {a b : Waiting Extended} (ha : a.Comparable)
    (hb : b.Comparable) (hnot : b.before a = false) : a.priority.Precedes b.priority := by
  rw [Bool.eq_false_iff, Ne, before_iff hb ha, sortKey, sortKey, Prod.Lex.toLex_lt_toLex,
    Prod.Lex.toLex_lt_toLex, Extended.level_lt_level hb ha] at hnot
  rcases lt_trichotomy a.priority.rank b.priority.rank with hlt | heq | hgt
  · exact Or.inl hlt
  · refine Or.inr ⟨heq, (Extended.not_lt hb ha).mp fun hlt => hnot (Or.inr ⟨heq.symm, Or.inl hlt⟩)⟩
  · exact absurd (Or.inl hgt) hnot

namespace OpenQueue

variable {μ : Type} {q q' : OpenQueue Extended} {t t' : Tree Extended μ} {h : Handle}

def Ranked (q : OpenQueue Extended) (t : Tree Extended μ) : Prop :=
  ∀ e ∈ q.entries, e.priority = priorityOf q.rule (t.node e.node)

theorem Ranked.of_subset (hq : q.Ranked t) (hrule : q'.rule = q.rule)
    (hsub : q'.entries ⊆ q.entries) : q'.Ranked t := fun e he => hrule ▸ hq e (hsub he)

theorem Ranked.of_tree (hq : q.Ranked t)
    (hsame : ∀ k ∈ q.handles, priorityOf q.rule (t'.node k) = priorityOf q.rule (t.node k)) :
    q.Ranked t' := fun e he => (hq e he).trans (hsame e.node (List.mem_map_of_mem he)).symm

theorem rule_addAll (hs : List Handle) : (q.addAll t hs).rule = q.rule := by
  induction hs generalizing q with
  | nil => rfl
  | cons h hs ih =>
      refine ih.trans ?_
      show (q.add t h).rule = q.rule
      rw [OpenQueue.add]
      split
      · rfl
      · rfl

theorem Ranked.addAll (hq : q.Ranked t) (hs : List Handle) : (q.addAll t hs).Ranked t := by
  induction hs generalizing q with
  | nil => exact hq
  | cons h hs ih =>
      refine ih ?_
      by_cases hpending : (t.node h).isPending = true
      · intro e he
        have hrule : (q.add t h).rule = q.rule := rule_addAll [h]
        rw [hrule]
        rcases List.mem_cons.mp ((entries_add_of_pending hpending).mem_iff.mp he) with rfl | he
        · rfl
        · exact hq e he
      · show (q.add t h).Ranked t
        rw [OpenQueue.add, if_neg hpending]
        exact hq

theorem rule_pop {next : Option Handle} (hpop : q.pop t = (next, q')) : q'.rule = q.rule :=
  congrArg (fun x => rule x.2) (hpop.symm.trans (pop_eq q t))

/-- The node that is taken out has a priority that comes first. -/
theorem Fits.precedes_of_pop (hq : q.Fits t) (hranked : q.Ranked t)
    (hpending : ∀ k ∈ q.handles, (t.node k).isPending = true) (hpop : q.pop t = (some h, q'))
    {k : Handle} (hk : k ∈ q.handles) :
    (priorityOf q.rule (t.node h)).Precedes (priorityOf q.rule (t.node k)) := by
  have hlength : q.heap.toList.length ≤ q.heap.size := by simp [Heap.toList, Heap.size]
  obtain ⟨hvalid, -, dropped, hperm, hclosed⟩ := dropClosed_spec (t := t) hq.valid hlength
  rw [pop_eq, Prod.mk.injEq, Option.map_eq_some_iff] at hpop
  obtain ⟨⟨e, hmin, rfl⟩, -⟩ := hpop
  obtain ⟨x, hx, rfl⟩ := List.mem_map.mp hk
  have he : e ∈ q.entries := hperm.mem_iff.mpr
    (List.mem_append_right _ ((Heap.toList_dropMin Waiting.before hmin).mem_iff.mpr
      List.mem_cons_self))
  have hleft : x ∈ (dropClosed t q.heap.size q.heap).toList := by
    rcases List.mem_append.mp (hperm.mem_iff.mp hx) with hgone | hleft
    · have hwaits := hpending x.node hk
      rw [hclosed x hgone] at hwaits
      cases hwaits
    · exact hleft
  rw [← hranked e he, ← hranked x hx]
  exact Waiting.precedes_of_not_before (hq.valid.mem he) (hq.valid.mem hx)
    (hvalid.min?_le Waiting.orders_before hmin hleft)

end OpenQueue

theorem Tree.Listed.inArena {α μ : Type} [Scalar α] {t : Tree α μ} {h : Nat} (hlisted : t.Listed)
    (ht : t.Rooted) (hlt : h < t.records.size) : t.InArena h := by
  have hkeys : t.arena.keys.Nodup := by
    rw [Mapping.keys, hlisted.arena_eq, List.map_map]
    exact List.nodup_range.map Int.ofNat_injective
  rw [ht.keyed.inArena_iff]
  refine (Mapping.get?_eq_some_iff hkeys).mpr ?_
  rw [hlisted.arena_eq]
  exact List.mem_map_of_mem (List.mem_range.mpr hlt)

namespace Search

variable {μ σ : Type} {p : Problem Extended μ σ} {config : SearchConfig Extended}
  {start run run' : Run Extended μ σ} {t t' t'' : Tree Extended μ} {h : Nat}
  {hand hand' : Option Handle} {rule : SelectionRule}

/-! ### What a turn does -/

/-- What closing the node in hand does to the nodes: its own bound may rise, other nodes keep theirs
and may be closed as well, and new nodes are its children, with its new bound. -/
structure Resolves (t : Tree Extended μ) (h : Nat) (t' : Tree Extended μ) : Prop where
  size_le : t.records.size ≤ t'.records.size
  place_eq : ∀ k < t.records.size, (t'.node k).place = (t.node k).place
  pending : ∀ k < t.records.size, (t'.node k).isPending = true → (t.node k).isPending = true
  bound_eq : ∀ k < t.records.size, k ≠ h → (t'.node k).lowerBound = (t.node k).lowerBound
  raised : (t.node h).lowerBound ≤ (t'.node h).lowerBound
  new : ∀ k, t.records.size ≤ k → k < t'.records.size →
    (t.node h).Begets (t'.node k) ∧ (t'.node k).lowerBound = (t'.node h).lowerBound

structure Takes (rule : SelectionRule) (t : Tree Extended μ) (h : Nat) (t' : Tree Extended μ) :
    Prop where
  known : h < t.records.size
  pending : (t.node h).isPending = true
  first : ∀ k < t.records.size, (t.node k).isPending = true →
    (OpenQueue.priorityOf rule (t.node h)).Precedes (OpenQueue.priorityOf rule (t.node k))
  tree_eq : t' = t.modify h fun n => { n with status := .processing }

/-- What a step does to the tree and the node in hand. -/
inductive Turn (rule : SelectionRule) (t : Tree Extended μ) :
    Option Handle → Tree Extended μ → Option Handle → Prop where
  | rest {hand : Option Handle} : Turn rule t hand t hand
  | take {h : Nat} {t' : Tree Extended μ} (takes : Takes rule t h t') : Turn rule t none t' (some h)
  | close {h : Nat} {t' : Tree Extended μ} (resolves : Resolves t h t') :
      Turn rule t (some h) t' none

theorem Takes.node_eq (ht : Takes rule t h t') (k : Handle) :
    t'.node k = if k = h then { t.node h with status := .processing } else t.node k := by
  rw [ht.tree_eq, Tree.node_modify]
  by_cases hk : k = h
  · rw [if_pos ⟨hk, ht.known⟩, if_pos hk]
  · rw [if_neg fun hand => hk hand.1, if_neg hk]

theorem Takes.size_eq (ht : Takes rule t h t') : t'.records.size = t.records.size := by
  rw [ht.tree_eq, Tree.size_modify]

theorem Takes.place_eq (ht : Takes rule t h t') (k : Handle) :
    (t'.node k).place = (t.node k).place ∧ (t'.node k).lowerBound = (t.node k).lowerBound := by
  rw [ht.node_eq]
  split
  · rename_i hk
    rw [hk]
    exact ⟨rfl, rfl⟩
  · exact ⟨rfl, rfl⟩

theorem Takes.pending_of (ht : Takes rule t h t') {k : Handle}
    (hpending : (t'.node k).isPending = true) : k ≠ h ∧ (t.node k).isPending = true := by
  rw [ht.node_eq] at hpending
  split at hpending
  · cases hpending
  · rename_i hk
    exact ⟨hk, hpending⟩

/-! ### Closing a node is a turn -/

/-- A change of the tree that touches no place and no bound, and makes no node pending. -/
structure Calms (t t' : Tree Extended μ) : Prop where
  arena : Tree.SameArena t t'
  pending : ∀ k, (t'.node k).isPending = true → (t.node k).isPending = true
  bound_eq : ∀ k, (t'.node k).lowerBound = (t.node k).lowerBound

theorem Calms.trans (h₁ : Calms t t') (h₂ : Calms t' t'') : Calms t t'' :=
  ⟨h₁.arena.trans h₂.arena, fun k hk => h₁.pending k (h₂.pending k hk),
    fun k => (h₂.bound_eq k).trans (h₁.bound_eq k)⟩

theorem calms_modify (t : Tree Extended μ) (h : Handle) {f : Node Extended μ → Node Extended μ}
    (hplace : ∀ n, (f n).place = n.place ∧ (f n).children = n.children)
    (hpending : ∀ n, (f n).isPending = true → n.isPending = true)
    (hbound : ∀ n, (f n).lowerBound = n.lowerBound) : Calms t (t.modify h f) := by
  refine ⟨t.sameArena_modify h hplace, fun k hk => ?_, fun k => ?_⟩
  · rw [Tree.node_modify] at hk
    split at hk
    · rename_i heq
      exact heq.1 ▸ hpending _ hk
    · exact hk
  · rw [Tree.node_modify]
    split
    · rename_i heq
      rw [heq.1, hbound]
    · rfl

theorem calms_markProcessed (t : Tree Extended μ) (h : Handle) {status : NodeStatus}
    (hstatus : status ≠ .pending) : Calms t (t.markProcessed h status) := by
  have hmodify := calms_modify t h (f := fun n => { n with status }) (fun _ => ⟨rfl, rfl⟩)
    (fun n hn => absurd (Node.isPending_iff.mp hn) hstatus) fun _ => rfl
  exact ⟨t.sameArena_markProcessed h status, hmodify.pending, hmodify.bound_eq⟩

theorem calms_accepted (t : Tree Extended μ) (h : Handle) (values : EdgeValues Extended) :
    Calms t (accepted t h values) := by
  have hrecord := calms_modify t h (f := fun n => { n with isInteger := true, solution := values })
    (fun _ => ⟨rfl, rfl⟩) (fun _ hn => hn) fun _ => rfl
  have hmarked := hrecord.trans (calms_markProcessed _ h
    (show NodeStatus.integer ≠ .pending by simp))
  exact ⟨⟨hmarked.arena.size_eq, hmarked.arena.nextId_eq, hmarked.arena.arena_eq,
    hmarked.arena.node_eq⟩, hmarked.pending, hmarked.bound_eq⟩

theorem calms_pruneByBound (t : Tree Extended μ) : Calms t t.pruneByBound.2 := by
  have hpruned := Tree.pruned_pruneByBound t
  refine ⟨t.sameArena_pruneEach t.arena.values, fun k hk => ?_, fun k => ?_⟩
  · rcases hpruned.nodes k with heq | ⟨hwaits, -, -⟩
    · rw [← heq]
      exact hk
    · exact hwaits
  · rcases hpruned.nodes k with heq | ⟨-, -, heq⟩
    · rw [heq]
    · rw [heq]

theorem sameArena_solvedTree (t : Tree Extended μ) (h : Handle) (z : Extended) :
    Tree.SameArena t (solvedTree t h z) := t.sameArena_modify h fun _ => ⟨rfl, rfl⟩

theorem le_larger_left {a b : Extended} (ha : a ≠ .undefined) : a ≤ Scalar.larger a b := by
  unfold Scalar.larger
  split
  · rename_i hlt
    exact Extended.le_of_lt hlt
  · exact Extended.le_refl ha

theorem resolves_self (hbounded : (t.node h).lowerBound ≠ .undefined) : Resolves t h t :=
  ⟨Nat.le_refl _, fun _ _ => rfl, fun _ _ hk => hk, fun _ _ _ => rfl, Extended.le_refl hbounded,
    fun _ hge hk => absurd hk (Nat.not_lt.mpr hge)⟩

theorem resolves_solvedTree (hlt : h < t.records.size)
    (hbounded : (t.node h).lowerBound ≠ .undefined) (z : Extended) :
    Resolves t h (solvedTree t h z) := by
  have hself := t.node_modify_self hlt (solvedNode z)
  have harena := sameArena_solvedTree t h z
  refine ⟨harena.size_eq.ge, fun k _ => (harena.node_eq k).1, fun k _ hk => ?_, fun k _ hk => ?_,
    ?_, fun k hge hk => ?_⟩
  · by_cases hkh : k = h
    · rw [hkh, solvedTree, hself] at hk
      exact hkh ▸ hk
    · rwa [solvedTree, t.node_modify_of_ne hkh] at hk
  · rw [solvedTree, t.node_modify_of_ne hk]
  · rw [solvedTree, hself]
    exact le_larger_left hbounded
  · rw [harena.size_eq] at hk
    omega

theorem Resolves.calms (hr : Resolves t h t') (hc : Calms t' t'') : Resolves t h t'' := by
  have hsize := hc.arena.size_eq
  refine ⟨hsize.symm ▸ hr.size_le, fun k hk => ((hc.arena.node_eq k).1).trans (hr.place_eq k hk),
    fun k hk hwaits => hr.pending k hk (hc.pending k hwaits),
    fun k hk hne => (hc.bound_eq k).trans (hr.bound_eq k hk hne), ?_, fun k hge hk => ?_⟩
  · rw [hc.bound_eq]
    exact hr.raised
  · obtain ⟨hbegets, hbound⟩ := hr.new k hge (hsize ▸ hk)
    exact ⟨hbegets.of_place rfl (hc.arena.node_eq k).1, by rw [hc.bound_eq, hc.bound_eq, hbound]⟩

/-- Branching after a node has been solved. -/
theorem Resolves.branch (hr : Resolves t h t') (harena : Tree.SameArena t t')
    (hlt : h < t.records.size) (ds : List (Decision μ)) :
    Resolves t h (t'.createChildren h ds).2 := by
  have hsize := harena.size_eq
  have hb := Tree.branched_createChildren (hsize.symm ▸ hlt) ds
  have hold : ∀ k < t.records.size, ((t'.createChildren h ds).2.node k).place = (t'.node k).place ∧
      ((t'.createChildren h ds).2.node k).lowerBound = (t'.node k).lowerBound := by
    intro k hk
    obtain ⟨children, status, heq⟩ := hb.old_node (hsize.symm ▸ hk)
    rw [heq]
    exact ⟨rfl, rfl⟩
  refine ⟨hsize ▸ hb.size_eq ▸ Nat.le_add_right _ _,
    fun k hk => (hold k hk).1.trans (hr.place_eq k hk), fun k hk hwaits => ?_,
    fun k hk hne => (hold k hk).2.trans (hr.bound_eq k hk hne), ?_, fun k hge hk => ?_⟩
  · by_cases hkh : k = h
    · obtain ⟨children, hself⟩ := hb.self
      rw [hkh, hself] at hwaits
      cases hwaits
    · rw [hb.old k (hsize.symm ▸ hk) hkh] at hwaits
      exact hr.pending k hk hwaits
  · rw [(hold h hlt).2]
    exact hr.raised
  · rcases hb.cases k with ⟨hk', -⟩ | ⟨i, d, -, -, hnew⟩ | ⟨hge', -⟩
    · rw [hsize] at hk'
      omega
    · rw [(hold h hlt).2, hnew]
      exact ⟨(Node.begets_childOf _ d _).of_place (harena.node_eq h).1.symm rfl, rfl⟩
    · omega

theorem Closes.resolves {answer : Answer Extended} (hcloses : Closes p config h run answer run')
    (hlt : h < run.tree.records.size) (hbounded : (run.tree.node h).lowerBound ≠ .undefined) :
    Resolves run.tree h run'.tree := by
  have hsolved := resolves_solvedTree hlt hbounded
  cases hcloses with
  | infeasible => exact (resolves_self hbounded).calms (calms_markProcessed _ h (by simp))
  | @hopeless z => exact (hsolved z).calms (calms_markProcessed _ h (by simp))
  | @incumbent z values _ _ =>
      exact ((hsolved z).calms (calms_accepted _ h values)).calms (calms_pruneByBound _)
  | @givenUp z => exact (hsolved z).calms (calms_markProcessed _ h (by simp))
  | @branched z values cs c world _ _ _ _ =>
      exact (hsolved z).branch (sameArena_solvedTree run.tree h z) hlt c.decisions

theorem Closes.rooted {answer : Answer Extended} (hcloses : Closes p config h run answer run')
    (ht : run.tree.Rooted) (hin : run.tree.InArena h) : run'.tree.Rooted := by
  have hsolved := sameArena_solvedTree run.tree h
  cases hcloses with
  | infeasible => exact (run.tree.sameArena_markProcessed h _).rooted ht
  | @hopeless z => exact ((hsolved z).trans (Tree.sameArena_markProcessed _ h _)).rooted ht
  | @incumbent z values _ _ =>
      exact (((hsolved z).trans (calms_accepted _ h values).arena).trans
        (calms_pruneByBound _).arena).rooted ht
  | @givenUp z => exact ((hsolved z).trans (Tree.sameArena_markProcessed _ h _)).rooted ht
  | @branched z values cs c world _ _ _ _ =>
      have hbefore := (hsolved z).rooted ht
      have hin' := (hsolved z).inArena_iff.mpr hin
      exact (Tree.sameArena_markProcessed _ h .branched).rooted
        (hbefore.createEach hin' c.decisions)

/-! ### Every step is a turn -/

structure Surveyed (rule : SelectionRule) (hand : Option Handle) (run : Run Extended μ σ) :
    Prop where
  ledger : ∃ visited, Ledger visited hand run
  rule_eq : run.queue.rule = rule
  ranked : run.queue.Ranked run.tree
  rooted : run.tree.Rooted

theorem depth_of_place {n n' : Node Extended μ} (hplace : n'.place = n.place) :
    n'.depth = n.depth := congrArg (fun p => p.2.1) hplace

theorem priorityOf_congr {n n' : Node Extended μ} (hplace : n'.place = n.place)
    (hbound : n'.lowerBound = n.lowerBound) (rule : SelectionRule) :
    OpenQueue.priorityOf rule n' = OpenQueue.priorityOf rule n := by
  cases rule with
  | bestFirst => rw [OpenQueue.priorityOf, hbound, OpenQueue.priorityOf]
  | depthFirst => rw [OpenQueue.priorityOf, hbound, depth_of_place hplace, OpenQueue.priorityOf]
  | breadthFirst => rw [OpenQueue.priorityOf, Node.id_of_place hplace, OpenQueue.priorityOf]

/-- Closing a node keeps the entries in rank: what waits has not changed, and what enters is ranked
as it is. -/
theorem Closes.ranked {answer : Answer Extended} {visited : List Handle}
    (hcloses : Closes p config h run answer run') (hl : Ledger visited (some h) run)
    (hranked : run.queue.Ranked run.tree) :
    run'.queue.Ranked run'.tree ∧ run'.queue.rule = run.queue.rule := by
  have hr := hcloses.resolves hl.hand_lt (hl.bounded h)
  have hother : ∀ {k}, (run.tree.node k).isPending = true → k ≠ h := by
    rintro k hwaits rfl
    rw [Node.isPending_iff, (hl.processing k).mpr rfl] at hwaits
    cases hwaits
  have hold : run.queue.Ranked run'.tree := by
    refine hranked.of_tree fun k hk => ?_
    obtain ⟨hlt, hwaits⟩ := hl.listed.mem_pending.mp (hl.waiting.mem_iff.mp hk)
    exact priorityOf_congr (hr.place_eq k hlt) (hr.bound_eq k hlt (hother hwaits)) _
  have hfits : run.queue.Fits run'.tree := hl.fits.of_tree hr.size_le fun k hk hwaits =>
    ⟨hr.pending k hk hwaits, hr.bound_eq k hk (hother (hr.pending k hk hwaits))⟩
  cases hcloses with
  | infeasible | hopeless | givenUp => exact ⟨hold, rfl⟩
  | incumbent =>
      refine ⟨hold.of_subset rfl fun e he => ?_, rfl⟩
      exact (List.mem_filter.mp ((run.queue.entries_prune hfits).2.mem_iff.mp he)).1
  | branched => exact ⟨hold.addAll _, OpenQueue.rule_addAll _⟩

theorem Surveyed.advance {place place' : Place Extended} (hs : Surveyed rule place.hand run)
    (hafter : KeepsTree p) (next : (Search.advance p config place).Gives run place' run') :
    Surveyed rule place'.hand run' ∧
      Turn rule run.tree place.hand run'.tree place'.hand := by
  obtain ⟨visited, hl⟩ := hs.ledger
  have hledger : ∃ visited, Ledger visited place'.hand run' := ⟨_, hl.advance hafter next⟩
  have hsame (htree : run'.tree = run.tree) (hqueue : run'.queue = run.queue)
      (hhand : place'.hand = place.hand) :
      Surveyed rule place'.hand run' ∧ Turn rule run.tree place.hand run'.tree place'.hand := by
    refine ⟨⟨hledger, hqueue ▸ hs.rule_eq, ?_, htree ▸ hs.rooted⟩, ?_⟩
    · rw [htree, hqueue]
      exact hs.ranked
    · rw [htree, hhand]
      exact .rest
  cases moves_of_gives next with
  | done | rested => exact hsame rfl rfl rfl
  | drained popped =>
      obtain ⟨-, hempty, -⟩ := hl.fits.pop_none popped
      refine ⟨⟨hledger, (OpenQueue.rule_pop popped).trans hs.rule_eq, fun e he => ?_, hs.rooted⟩,
        .rest⟩
      rw [show OpenQueue.entries _ = [] from hempty] at he
      cases he
  | @taken _ _ h q popped kept =>
      obtain ⟨-, hwaits, hlt, hperm⟩ := hl.fits.handles_pop (fun _ => hl.isPending) popped
      obtain ⟨-, -, e, dropped, -, hentries, -⟩ := hl.fits.pop_some popped
      have hrule := OpenQueue.rule_pop popped
      have htakes : Takes rule run.tree h run'.tree := by
        refine ⟨hlt, hwaits, fun k hk hpending => ?_, kept.tree⟩
        have hmem := hl.waiting.mem_iff.mpr (hl.listed.mem_pending.mpr ⟨hk, hpending⟩)
        rw [← hs.rule_eq]
        exact hl.fits.precedes_of_pop hs.ranked (fun _ => hl.isPending) popped hmem
      refine ⟨⟨hledger, ?_, ?_, ?_⟩, .take htakes⟩
      · rw [kept.queue]
        exact hrule.trans hs.rule_eq
      · rw [kept.queue]
        refine (hs.ranked.of_subset hrule fun x hx => hentries.mem_iff.mpr
          (List.mem_append_right _ (List.mem_cons_of_mem e hx))).of_tree fun k _ => ?_
        exact priorityOf_congr (htakes.place_eq k).1 (htakes.place_eq k).2 _
      · rw [kept.tree]
        exact (run.tree.sameArena_modify h (f := fun n => { n with status := .processing })
          fun _ => ⟨rfl, rfl⟩).rooted hs.rooted
  | moved move =>
      obtain ⟨trail, world, -, rfl⟩ := gives_goTo.mp move
      exact hsame rfl rfl rfl
  | again round | answered round =>
      obtain ⟨hkept, -, -⟩ := rounds_of_gives round
      exact hsame hkept.tree hkept.queue rfl
  | @closed _ _ h answer close =>
      have hcloses := closes_of_gives close
      obtain ⟨hranked, hrule⟩ := hcloses.ranked hl hs.ranked
      have hin := hl.listed.inArena hs.rooted hl.hand_lt
      exact ⟨⟨hledger, hrule.trans hs.rule_eq, hranked, hcloses.rooted hs.rooted hin⟩,
        .close (hcloses.resolves hl.hand_lt (hl.bounded h))⟩
  | returned after => exact hsame (hafter after) rfl rfl

theorem surveyed_outset (s : Solver Extended μ σ) : Surveyed s.queue.rule none (outset s) := by
  have hrule : (outset s).queue.rule = s.queue.rule :=
    OpenQueue.rule_addAll (q := s.queue.clear) (t := (Tree.initial : Tree Extended μ)) [Tree.root]
  have hempty : s.queue.clear.Ranked (Tree.initial : Tree Extended μ) := fun e he => nomatch he
  exact ⟨⟨[], ledger_outset s⟩, hrule, hempty.addAll [Tree.root], Tree.rooted_initial⟩

/-! ### Nodes on the way to others -/

end Search

namespace Tree

variable {α μ : Type} [Scalar α] {t t' : Tree α μ} {n h k : Nat}

def OnPath (t : Tree α μ) (n h : Nat) : Prop := (n : Int) ∈ t.path h

theorem path_of_place (hplace : (t'.node h).place = (t.node h).place) : t'.path h = t.path h := by
  have hrootPath : (t'.node h).rootPath = (t.node h).rootPath := congrArg (fun p => p.2.2) hplace
  rw [path, path, hrootPath, Node.id_of_place hplace]

theorem onPath_of_place (hplace : (t'.node h).place = (t.node h).place) :
    t'.OnPath n h ↔ t.OnPath n h := by
  rw [OnPath, OnPath, path_of_place hplace]

theorem onPath_of_begets (hbegets : (t.node h).Begets (t'.node k)) (hid : (t'.node k).id = k) :
    t'.OnPath n k ↔ t.OnPath n h ∨ n = k := by
  have hpath : t'.path k = t.path h ++ [(k : Int)] := by
    rw [path, path, hbegets.rootPath_eq, hid]
  rw [OnPath, OnPath, hpath, List.mem_append, List.mem_singleton, Int.ofNat_inj]

namespace Rooted

theorem onPath_self (ht : t.Rooted) (hlt : h < t.records.size) : t.OnPath h h := by
  rw [OnPath, path, ht.id_eq h hlt]
  exact List.mem_append_right _ (List.mem_singleton_self _)

theorem onPath_root (ht : t.Rooted) : t.OnPath n root ↔ n = root := by
  rw [OnPath, ht.path_root, ht.id_eq root (ht.lt_size ht.root_inArena), List.mem_singleton,
    Int.ofNat_inj]

theorem onPath_iff (ht : t.Rooted) (hin : t.InArena h) : t.OnPath n h ↔ t.Above n h := by
  induction h using Nat.strong_induction_on with
  | _ h ih =>
      by_cases hroot : h = root
      · subst hroot
        rw [ht.onPath_root]
        refine ⟨fun heq => heq ▸ .refl, fun habove => ?_⟩
        cases habove with
        | refl => rfl
        | tail _ hlookup =>
            rw [ht.lookup?_root_parent] at hlookup
            cases hlookup
      · obtain ⟨k, hk, hkin, hbegets⟩ := ht.of_child h hin hroot
        have hlookup : t.lookup? (t.node h).parent = some k := hbegets.parent_eq ▸ hkin
        rw [onPath_of_begets hbegets (ht.id_eq h (ht.lt_size hin)), ih k hk hkin]
        constructor
        · rintro (habove | rfl)
          · exact habove.tail hlookup
          · exact .refl
        · intro habove
          cases habove with
          | refl => exact Or.inr rfl
          | tail habove hlookup' =>
              obtain rfl := Option.some.inj (hlookup.symm.trans hlookup')
              exact Or.inl habove

theorem depth_le_of_onPath (ht : t.Rooted) (hin : t.InArena h) (hon : t.OnPath n h) :
    (t.node n).depth ≤ (t.node h).depth := by
  rcases ht.depth_lt_of_above hin ((ht.onPath_iff hin).mp hon) with rfl | hlt
  · exact le_refl _
  · exact le_of_lt hlt

end Rooted

end Tree

namespace Search

variable {μ σ : Type} {config : SearchConfig Extended} {t t' : Tree Extended μ}
  {hand hand' : Option Handle} {rule : SelectionRule} {n h k : Nat}

/-- The tree is in order and full, its bounds are numbers, and the node in hand is the one that is
being processed. -/
structure Arrayed (hand : Option Handle) (t : Tree Extended μ) : Prop where
  rooted : t.Rooted
  inArena : ∀ h < t.records.size, t.InArena h
  bounded : ∀ k, (t.node k).lowerBound ≠ .undefined
  processing : ∀ k, (t.node k).status = .processing ↔ hand = some k

theorem Surveyed.arrayed {run : Run Extended μ σ} (hs : Surveyed rule hand run) :
    Arrayed hand run.tree := by
  obtain ⟨visited, hl⟩ := hs.ledger
  exact ⟨hs.rooted, fun h hlt => hl.listed.inArena hs.rooted hlt, hl.bounded, hl.processing⟩

namespace Arrayed

theorem hand_lt (ha : Arrayed (some h) t) : h < t.records.size :=
  Tree.lt_of_status (by simp [(ha.processing h).mpr rfl])

theorem hand_not_pending (ha : Arrayed (some h) t) : (t.node h).isPending = false := by
  rw [Node.isPending, (ha.processing h).mpr rfl]
  rfl

theorem onPath_parent (ha : Arrayed hand t) (hlt : k < t.records.size)
    (hparent : (t.node k).parent = (n : Int)) : n ≠ k ∧ t.OnPath n k := by
  have hroot : k ≠ Tree.root := by
    rintro rfl
    rw [ha.rooted.root_parent] at hparent
    cases hparent
  obtain ⟨m, hm, hin, hbegets⟩ := ha.rooted.of_child k (ha.inArena k hlt) hroot
  have hlt' := ha.rooted.lt_size hin
  rw [hbegets.parent_eq, ha.rooted.id_eq m hlt', Int.ofNat_inj] at hparent
  subst hparent
  refine ⟨Nat.ne_of_lt hm, ?_⟩
  rw [Tree.onPath_of_begets hbegets (ha.rooted.id_eq k hlt)]
  exact Or.inl (ha.rooted.onPath_self hlt')

end Arrayed

/-- What is known of a tree and the node in hand at any time of a search. A node with others below
it is closed, and no node has a bound below that of its parent. -/
structure Graded (hand : Option Handle) (t : Tree Extended μ) : Prop extends Arrayed hand t where
  closed : ∀ n k : Nat, k < t.records.size → t.OnPath n k → n ≠ k →
    (t.node n).isPending = false ∧ hand ≠ some n
  inherited : ∀ n k : Nat, k < t.records.size → (t.node k).parent = (n : Int) →
    (t.node n).lowerBound ≤ (t.node k).lowerBound

theorem Takes.depth_eq (takes : Takes rule t h t') (k : Handle) :
    (t'.node k).depth = (t.node k).depth := depth_of_place (takes.place_eq k).1

theorem Takes.onPath_iff (takes : Takes rule t h t') : t'.OnPath n k ↔ t.OnPath n k :=
  Tree.onPath_of_place (takes.place_eq k).1

theorem Turn.takes (hturn : Turn rule t none t' (some h)) : Takes rule t h t' := by
  cases hturn with
  | take takes => exact takes

theorem lt_of_closed (hclosed : (t.node n).isPending = false) : n < t.records.size :=
  Tree.lt_of_status fun hstatus => absurd (Node.isPending_iff.mpr hstatus) (by simp [hclosed])

/-- Closed nodes stay closed. -/
theorem Turn.closed_of_closed (hturn : Turn rule t hand t' hand')
    (hclosed : (t.node n).isPending = false) : (t'.node n).isPending = false := by
  rw [Bool.eq_false_iff]
  intro hpending
  have hbefore : (t.node n).isPending = true := by
    cases hturn with
    | rest => exact hpending
    | take takes => exact (takes.pending_of hpending).2
    | close resolves => exact resolves.pending n (lt_of_closed hclosed) hpending
  rw [hclosed] at hbefore
  cases hbefore

theorem Graded.turn (ho : Graded hand t) (hturn : Turn rule t hand t' hand')
    (ha : Arrayed hand' t') : Graded hand' t' := by
  cases hturn with
  | rest => exact ho
  | @take h _ takes =>
      refine ⟨ha, fun n k hk hon hne => ?_, fun n k hk hparent => ?_⟩
      · rw [takes.size_eq] at hk
        obtain ⟨hclosed, -⟩ := ho.closed n k hk (takes.onPath_iff.mp hon) hne
        refine ⟨(Turn.take takes).closed_of_closed hclosed, ?_⟩
        rintro ⟨⟩
        rw [takes.pending] at hclosed
        cases hclosed
      · rw [takes.size_eq] at hk
        rw [Node.parent_of_place (takes.place_eq k).1] at hparent
        rw [(takes.place_eq n).2, (takes.place_eq k).2]
        exact ho.inherited n k hk hparent
  | @close h _ resolves =>
      have hlt := ho.hand_lt
      have hturn : Turn rule t (some h) t' none := .close resolves
      have hclosed' : ∀ {n}, (t.node n).isPending = false →
          (t'.node n).isPending = false ∧ none ≠ some n := fun hclosed =>
        ⟨hturn.closed_of_closed hclosed, nofun⟩
      refine ⟨ha, fun n k hk hon hne => ?_, fun n k hk hparent => ?_⟩
      · by_cases hold : k < t.records.size
        · have hon' := (Tree.onPath_of_place (resolves.place_eq k hold)).mp hon
          exact hclosed' (ho.closed n k hold hon' hne).1
        · obtain ⟨hbegets, -⟩ := resolves.new k (Nat.le_of_not_lt hold) hk
          rw [Tree.onPath_of_begets hbegets (ha.rooted.id_eq k hk), or_iff_left hne] at hon
          by_cases hnh : n = h
          · exact hclosed' (hnh ▸ ho.hand_not_pending)
          · exact hclosed' (ho.closed n h hlt hon hnh).1
      · by_cases hold : k < t.records.size
        · rw [Node.parent_of_place (resolves.place_eq k hold)] at hparent
          obtain ⟨hne, hon⟩ := ho.onPath_parent hold hparent
          have hle := ho.inherited n k hold hparent
          -- The bound of the parent does not rise any more: it is not in hand.
          obtain ⟨hclosed, hhand⟩ := ho.closed n k hold hon hne
          rw [resolves.bound_eq n (lt_of_closed hclosed) fun heq => hhand (congrArg some heq.symm)]
          by_cases hkh : k = h
          · exact Extended.le_trans hle (hkh ▸ resolves.raised)
          · rw [resolves.bound_eq k hold hkh]
            exact hle
        · obtain ⟨hbegets, hbound⟩ := resolves.new k (Nat.le_of_not_lt hold) hk
          rw [hbegets.parent_eq, ho.rooted.id_eq h hlt, Int.ofNat_inj] at hparent
          rw [hbound, ← hparent]
          exact Extended.le_refl (ha.bounded h)

theorem graded_initial : Graded none (Tree.initial : Tree Extended μ) := by
  have hroot : ∀ k < (Tree.initial : Tree Extended μ).records.size, k = Tree.root := fun k hk =>
    Nat.lt_one_iff.mp hk
  have ht : (Tree.initial : Tree Extended μ).Rooted := Tree.rooted_initial
  refine ⟨⟨ht, fun h hlt => Tree.listed_initial.inArena ht hlt, fun k => ?_, fun k => ?_⟩,
    fun n k hk hon hne => ?_, fun n k hk hparent => ?_⟩
  · rw [Tree.node_initial]
    simp [Node.blank]
  · rw [Tree.node_initial]
    simp [Node.blank]
  · rw [hroot k hk] at hon hne
    exact absurd (ht.onPath_root.mp hon) hne
  · rw [hroot k hk, ht.root_parent] at hparent
    cases hparent

/-! ### Whole searches -/

variable {s : Solver Extended μ σ}

theorem orbit_graded (hafter : KeepsTree s.problem) {i : Nat}
    {x : Place Extended × Run Extended μ σ} (hi : orbit s.problem config (outset s) i = some x) :
    Surveyed s.queue.rule x.1.hand x.2 ∧ Graded x.1.hand x.2.tree := by
  induction i generalizing x with
  | zero =>
      rw [orbit, Option.some.injEq] at hi
      subst hi
      exact ⟨surveyed_outset s, graded_initial⟩
  | succ i ih =>
      obtain ⟨before, hbefore, next⟩ := exists_of_orbit_succ hi
      obtain ⟨hs, ho⟩ := ih hbefore
      obtain ⟨hs', hturn⟩ := hs.advance hafter next
      exact ⟨hs', ho.turn hturn hs'.arrayed⟩

/-- What every turn keeps is kept from one time of a search to any later one. -/
theorem orbit_keeps (hafter : KeepsTree s.problem) {P : Option Handle → Tree Extended μ → Prop}
    (hkeeps : ∀ {hand t hand' t'}, Graded hand t → Graded hand' t' →
      Turn s.queue.rule t hand t' hand' → P hand t → P hand' t')
    {i j : Nat} (hij : i ≤ j) {x y : Place Extended × Run Extended μ σ}
    (hi : orbit s.problem config (outset s) i = some x) (hx : P x.1.hand x.2.tree)
    (hj : orbit s.problem config (outset s) j = some y) : P y.1.hand y.2.tree := by
  induction j, hij using Nat.le_induction generalizing y with
  | base =>
      obtain rfl := Option.some.inj (hi.symm.trans hj)
      exact hx
  | succ j hij ih =>
      obtain ⟨before, hbefore, next⟩ := exists_of_orbit_succ hj
      obtain ⟨hs, ho⟩ := orbit_graded hafter hbefore
      obtain ⟨hs', hturn⟩ := hs.advance hafter next
      exact hkeeps ho (ho.turn hturn hs'.arrayed) hturn (ih hbefore)

/-- A node that is about to be moved to was pending and came first just before. -/
theorem orbit_takes (hafter : KeepsTree s.problem) {i : Nat} {run : Run Extended μ σ}
    (hi : orbit s.problem config (outset s) i = some (.moving h, run)) :
    ∃ j before, i = j + 1 ∧ orbit s.problem config (outset s) j = some (.between, before) ∧
      Takes s.queue.rule before.tree h run.tree := by
  cases i with
  | zero => cases hi
  | succ j =>
      obtain ⟨⟨place, before⟩, hbefore, next⟩ := exists_of_orbit_succ hi
      have hplace : place = .between := by
        cases moves_of_gives next with
        | taken => rfl
      subst hplace
      obtain ⟨hs, -⟩ := orbit_graded hafter hbefore
      exact ⟨j, before, rfl, hbefore, (hs.advance hafter next).2.takes⟩

end Search

end TourSearch
