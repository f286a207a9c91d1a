import TourSearch.Proofs.Arena
import Mathlib

/-!
The counters of a tree against its nodes. A counter is the number of nodes with some status, so
every edit is described by what it does to these numbers: a node enters as pending, or an open node
takes another status (`Counted.assign`). Nodes are closed in two ways, by giving them a status and
by pruning, and only the first counts as processing. Discarded nodes leave the arena but not the
counters; they are closed, so the arena keeps all open nodes (`Shelved`).
-/

namespace TourSearch

variable {α μ : Type}

/-! ### Counters -/

namespace TreeStats

/-- The counter of the nodes that take a status, if there is one. -/
def tally (s : TreeStats α) : NodeStatus → Option Nat
  | .prunedBound => some s.prunedBound
  | .prunedInfeasible => some s.prunedInfeasible
  | .integer => some s.integer
  | .branched => some s.branched
  | .pending | .processing | .fathomed => none

theorem tally_countStatus (s : TreeStats α) (status other : NodeStatus) :
    (s.countStatus status).tally other =
      (s.tally other).map (· + if status = other then 1 else 0) := by
  cases status <;> cases other <;> rfl

/-- Open nodes are not counted by status. -/
theorem closed_of_tally {s : TreeStats α} {status : NodeStatus} {n : Nat}
    (h : s.tally status = some n) : status.isOpen = false := by
  cases status <;> first | rfl | cases h

@[simp] theorem created_countStatus (s : TreeStats α) (status : NodeStatus) :
    (s.countStatus status).created = s.created := by cases status <;> rfl

@[simp] theorem processed_countStatus (s : TreeStats α) (status : NodeStatus) :
    (s.countStatus status).processed = s.processed := by cases status <;> rfl

@[simp] theorem opened_countStatus (s : TreeStats α) (status : NodeStatus) :
    (s.countStatus status).opened = s.opened := by cases status <;> rfl

@[simp] theorem maxDepth_countStatus (s : TreeStats α) (status : NodeStatus) :
    (s.countStatus status).maxDepth = s.maxDepth := by cases status <;> rfl

@[simp] theorem created_countCreated (s : TreeStats α) (depth : Int) :
    (s.countCreated depth).created = s.created + 1 := rfl

@[simp] theorem processed_countCreated (s : TreeStats α) (depth : Int) :
    (s.countCreated depth).processed = s.processed := rfl

@[simp] theorem opened_countCreated (s : TreeStats α) (depth : Int) :
    (s.countCreated depth).opened = s.opened + 1 := rfl

@[simp] theorem maxDepth_countCreated (s : TreeStats α) (depth : Int) :
    (s.countCreated depth).maxDepth = max s.maxDepth depth := rfl

@[simp] theorem created_countClosed (s : TreeStats α) : s.countClosed.created = s.created := rfl

@[simp] theorem processed_countClosed (s : TreeStats α) :
    s.countClosed.processed = s.processed + 1 := rfl

@[simp] theorem opened_countClosed (s : TreeStats α) : s.countClosed.opened = s.opened - 1 := rfl

@[simp] theorem maxDepth_countClosed (s : TreeStats α) : s.countClosed.maxDepth = s.maxDepth := rfl

@[simp] theorem tally_countClosed (s : TreeStats α) : s.countClosed.tally = s.tally := rfl

end TreeStats

theorem countP_range_update {p q : Nat → Bool} {h n : Nat} (hlt : h < n)
    (hsame : ∀ k, k ≠ h → q k = p k) :
    (List.range n).countP q + (if p h then 1 else 0) =
      (List.range n).countP p + if q h then 1 else 0 := by
  induction n with
  | zero => exact absurd hlt (Nat.not_lt_zero h)
  | succ n ih =>
      simp only [List.range_succ, List.countP_append, List.countP_singleton]
      by_cases hn : h = n
      · have hbelow : (List.range n).countP q = (List.range n).countP p :=
          List.countP_congr fun k hk => by
            rw [hsame k (by have := List.mem_range.mp hk; omega)]
        rw [hbelow, hn]
        omega
      · have hfirst := ih (by omega)
        rw [hsame n (Ne.symm hn)]
        omega

namespace Tree

variable [Scalar α] {t t' : Tree α μ} {h k parent discarded pruned : Nat}

/-- The number of nodes ever created whose status passes a test. -/
def census (t : Tree α μ) (test : NodeStatus → Bool) : Nat :=
  (List.range t.records.size).countP fun h => test (t.node h).status

theorem census_register (t : Tree α μ) (n : Node α μ) (test : NodeStatus → Bool) :
    (t.register n).2.census test = t.census test + if test n.status then 1 else 0 := by
  have hsize : (t.register n).2.records.size = t.records.size + 1 := Array.size_push _
  have hold : ∀ h ∈ List.range t.records.size,
      test ((t.register n).2.node h).status = true ↔ test (t.node h).status = true := by
    intro h hh
    rw [node_register, if_neg (Nat.ne_of_lt (List.mem_range.mp hh))]
  rw [census, census, hsize, List.range_succ, List.countP_append, List.countP_congr hold,
    List.countP_singleton, node_register, if_pos rfl]

theorem census_assign (hlt : h < t.records.size) (status : NodeStatus)
    (test : NodeStatus → Bool) :
    (t.modify h fun n => { n with status }).census test +
        (if test (t.node h).status then 1 else 0) =
      t.census test + if test status then 1 else 0 := by
  have hupdate := countP_range_update (p := fun k => test (t.node k).status)
    (q := fun k => test ((t.modify h fun n => { n with status }).node k).status) hlt
    fun k hne => by rw [node_modify_of_ne t hne]
  simpa only [census, size_modify, node_modify_self t hlt] using hupdate

structure Counted (t : Tree α μ) (pruned : Nat) : Prop where
  created_eq : t.stats.created = t.records.size
  opened_eq : t.stats.opened = t.census NodeStatus.isOpen
  tally_eq : ∀ status n, t.stats.tally status = some n → n = t.census (· == status)
  balance : (t.stats.created : Int) = t.stats.opened + t.stats.processed + pruned
  depth_le : ∀ h : Nat, h < t.records.size → (t.node h).depth ≤ t.stats.maxDepth
  depth_eq : ∃ h : Nat, h < t.records.size ∧ (t.node h).depth = t.stats.maxDepth

theorem counted_initial : (initial : Tree α μ).Counted 0 := by
  refine ⟨rfl, ?_, ?_, rfl, fun h _ => ?_, root, Nat.one_pos, rfl⟩
  · simp only [census, node_initial]
    rfl
  · intro status n htally
    simp only [census, node_initial]
    cases status <;> cases htally <;> rfl
  · rw [node_initial]
    exact Int.le_refl 0

structure SameCount (t t' : Tree α μ) : Prop where
  size_eq : t'.records.size = t.records.size
  node_eq : ∀ k, (t'.node k).status = (t.node k).status ∧ (t'.node k).depth = (t.node k).depth
  stats_eq : ∃ lower upper, t'.stats = { t.stats with lower, upper }

theorem sameCount_modify (t : Tree α μ) (h : Handle) {f : Node α μ → Node α μ}
    (hf : ∀ n, (f n).status = n.status ∧ (f n).depth = n.depth) : SameCount t (t.modify h f) := by
  refine ⟨t.size_modify h f, fun k => ?_, _, _, rfl⟩
  rw [node_modify]
  split
  · rename_i hk
    rw [hk.1]
    exact hf (t.node h)
  · exact ⟨rfl, rfl⟩

theorem SameCount.census_eq (hs : SameCount t t') (test : NodeStatus → Bool) :
    t'.census test = t.census test := by
  simp only [census, hs.size_eq, (hs.node_eq _).1]

theorem Counted.of_sameCount (ht : t.Counted pruned) (hs : SameCount t t') : t'.Counted pruned := by
  obtain ⟨lower, upper, hstats⟩ := hs.stats_eq
  refine ⟨?_, ?_, fun status n htally => ?_, ?_, fun h hh => ?_, ?_⟩
  · rw [hstats, hs.size_eq]
    exact ht.created_eq
  · rw [hstats, hs.census_eq]
    exact ht.opened_eq
  · rw [hs.census_eq]
    refine ht.tally_eq status n ?_
    rw [← htally, hstats]
    rfl
  · rw [hstats]
    exact ht.balance
  · rw [hstats, (hs.node_eq h).2]
    exact ht.depth_le h (hs.size_eq ▸ hh)
  · obtain ⟨h, hh, hdepth⟩ := ht.depth_eq
    refine ⟨h, hs.size_eq ▸ hh, ?_⟩
    rw [hstats, (hs.node_eq h).2]
    exact hdepth

theorem Counted.register (ht : t.Counted pruned) {n : Node α μ} (hpending : n.status = .pending) :
    (t.register n).2.Counted pruned := by
  have hsize : (t.register n).2.records.size = t.records.size + 1 := Array.size_push _
  have hstats : (t.register n).2.stats = t.stats.countCreated n.depth := rfl
  have hnew : ((t.register n).2.node t.records.size).depth = n.depth := by
    rw [node_register, if_pos rfl]
  have hold : ∀ h, h < t.records.size → (t.register n).2.node h = t.node h := fun h hh => by
    rw [node_register, if_neg (Nat.ne_of_lt hh)]
  refine ⟨?_, ?_, fun status m htally => ?_, ?_, fun h hh => ?_, ?_⟩
  · rw [hsize, hstats, TreeStats.created_countCreated, ht.created_eq]
  · rw [census_register, hpending, hstats, TreeStats.opened_countCreated, ht.opened_eq]
    rfl
  · have hclosed := TreeStats.closed_of_tally htally
    have hne : (n.status == status) = false := by
      rw [hpending]
      cases status <;> first | rfl | cases hclosed
    rw [census_register, hne]
    exact ht.tally_eq status m htally
  · have hbalance := ht.balance
    simp only [hstats, TreeStats.created_countCreated, TreeStats.opened_countCreated,
      TreeStats.processed_countCreated]
    omega
  · rw [hsize] at hh
    rw [hstats, TreeStats.maxDepth_countCreated]
    by_cases hlast : h = t.records.size
    · rw [hlast, hnew]
      exact le_max_right _ _
    · have hlt : h < t.records.size := by omega
      rw [hold h hlt]
      exact (ht.depth_le h hlt).trans (le_max_left _ _)
  · rw [hstats, TreeStats.maxDepth_countCreated]
    rcases le_total t.stats.maxDepth n.depth with hle | hle
    · exact ⟨t.records.size, hsize ▸ Nat.lt_succ_self _, hnew.trans (max_eq_right hle).symm⟩
    · obtain ⟨h, hh, hdepth⟩ := ht.depth_eq
      refine ⟨h, hsize ▸ Nat.lt_succ_of_lt hh, ?_⟩
      rw [hold h hh, hdepth, max_eq_left hle]

theorem Counted.createChild (ht : t.Counted pruned) (parent : Handle) (d : Decision μ) :
    (t.createChild parent d).2.Counted pruned :=
  (ht.register rfl).of_sameCount (sameCount_modify _ _ fun _ => ⟨rfl, rfl⟩)

theorem Counted.createEach (ht : t.Counted pruned) (parent : Handle) (ds : List (Decision μ)) :
    (t.createEach parent ds).2.Counted pruned := by
  induction ds generalizing t with
  | nil => exact ht
  | cons d ds ih => exact ih (ht.createChild parent d)

theorem depth_assign (t : Tree α μ) (h k : Handle) (status : NodeStatus) :
    ((t.modify h fun n => { n with status }).node k).depth = (t.node k).depth := by
  rw [node_modify]
  split
  · rename_i hk
    rw [hk.1]
  · rfl

theorem Counted.assign {pruned' : Nat} (ht : t.Counted pruned) (hlt : h < t.records.size)
    (hopen : (t.node h).status.isOpen = true) {status : NodeStatus} {stats : TreeStats α}
    (hcreated : stats.created = t.stats.created) (hdepth : stats.maxDepth = t.stats.maxDepth)
    (hopened : stats.opened + 1 = t.stats.opened + if status.isOpen then 1 else 0)
    (hbalance : (stats.created : Int) = stats.opened + stats.processed + pruned')
    (htallies : ∀ other, stats.tally other =
      (t.stats.tally other).map (· + if status = other then 1 else 0)) :
    ({ t.modify h fun n => { n with status } with stats } : Tree α μ).Counted pruned' := by
  have hcensus := fun test => census_assign hlt status test
  refine ⟨?_, ?_, fun other n htally => ?_, hbalance, fun k hk => ?_, ?_⟩
  · show stats.created = (t.modify h fun n => { n with status }).records.size
    rw [hcreated, size_modify, ht.created_eq]
  · show stats.opened = ((t.modify h fun n => { n with status }).census NodeStatus.isOpen : Int)
    have hopenCensus := hcensus NodeStatus.isOpen
    rw [if_pos hopen] at hopenCensus
    have hbefore := ht.opened_eq
    cases hstatus : status.isOpen with
    | false =>
        simp only [hstatus, Bool.false_eq_true, if_false] at hopenCensus hopened
        omega
    | true =>
        simp only [hstatus, if_true] at hopenCensus hopened
        omega
  · show n = (t.modify h fun n => { n with status }).census (· == other)
    rw [htallies, Option.map_eq_some_iff] at htally
    obtain ⟨m, hm, rfl⟩ := htally
    -- While it was open the node was not counted.
    have hbefore : ((t.node h).status == other) = false := by
      have hother := TreeStats.closed_of_tally hm
      refine beq_eq_false_iff_ne.mpr ?_
      rintro rfl
      rw [hopen] at hother
      cases hother
    have hotherCensus := hcensus (· == other)
    rw [hbefore, ← ht.tally_eq other m hm] at hotherCensus
    simpa using hotherCensus.symm
  · show ((t.modify h fun n => { n with status }).node k).depth ≤ stats.maxDepth
    rw [depth_assign, hdepth]
    exact ht.depth_le k (size_modify t h _ ▸ hk)
  · obtain ⟨k, hk, hdeepest⟩ := ht.depth_eq
    refine ⟨k, (size_modify t h _).symm ▸ hk, ?_⟩
    show ((t.modify h fun n => { n with status }).node k).depth = stats.maxDepth
    rw [depth_assign, hdepth, hdeepest]

/-- A pending node that starts to be processed stays open. -/
theorem Counted.start (ht : t.Counted pruned) (hlt : h < t.records.size)
    (hpending : (t.node h).status = .pending) :
    (t.modify h fun n => { n with status := .processing }).Counted pruned := by
  have hopen : (t.node h).status.isOpen = true := by
    rw [hpending]
    rfl
  have htallies : ∀ other, t.stats.tally other =
      (t.stats.tally other).map (· + if NodeStatus.processing = other then 1 else 0) := by
    intro other
    cases other <;> rfl
  exact ht.assign hlt hopen rfl rfl rfl ht.balance htallies

theorem Counted.markProcessed (ht : t.Counted pruned) (hlt : h < t.records.size)
    (hopen : (t.node h).status.isOpen = true) {status : NodeStatus}
    (hclosed : status.isOpen = false) : (t.markProcessed h status).Counted pruned := by
  have hbalance := ht.balance
  rw [Tree.markProcessed, if_pos hopen]
  refine ht.assign hlt hopen ?_ ?_ ?_ ?_ fun other => ?_
  · simp
  · simp
  · simp [hclosed]
  · simp only [TreeStats.created_countStatus, TreeStats.opened_countStatus,
      TreeStats.processed_countStatus, TreeStats.created_countClosed,
      TreeStats.opened_countClosed, TreeStats.processed_countClosed]
    omega
  · rw [TreeStats.tally_countStatus, TreeStats.tally_countClosed]

theorem Counted.pruneOne (ht : t.Counted pruned) (hlt : h < t.records.size) :
    (t.pruneOne h).2.Counted (pruned + if (t.pruneOne h).1 then 1 else 0) := by
  rw [Tree.pruneOne]
  split
  case isTrue hprune =>
    have hpending := Node.isPending_iff.mp (Bool.and_eq_true_iff.mp hprune).1
    have hbalance := ht.balance
    refine ht.assign hlt (by rw [hpending]; rfl) rfl rfl ?_ ?_ fun other => ?_
    · exact (Int.sub_add_cancel t.stats.opened 1).trans (Int.add_zero _).symm
    · simp only [if_true]
      omega
    · cases other <;> rfl
  case isFalse => exact ht

theorem Counted.pruneEach (ht : t.Counted pruned) {hs : List Handle}
    (hknown : ∀ h ∈ hs, h < t.records.size) :
    (t.pruneEach hs).2.Counted (pruned + (t.pruneEach hs).1) := by
  induction hs generalizing t pruned with
  | nil => exact ht
  | cons h hs ih =>
      have hfirst := ht.pruneOne (hknown h List.mem_cons_self)
      have hrest := ih hfirst fun k hk => by
        rw [(t.sameArena_pruneOne h).size_eq]
        exact hknown k (List.mem_cons_of_mem h hk)
      rw [Tree.pruneEach]
      cases hb : (t.pruneOne h).1 with
      | false =>
          rw [hb] at hrest
          simpa [hb] using hrest
      | true =>
          rw [hb] at hrest
          simpa [hb, Nat.add_assoc, Nat.add_comm] using hrest

/-! ### Nodes that left the arena -/

structure Shelved (t : Tree α μ) (discarded : Nat) : Prop where
  keyed : t.Keyed
  nodup : t.arena.keys.Nodup
  size_eq : t.records.size = t.size + discarded
  stays : ∀ h : Nat, h < t.records.size → (t.node h).status.isOpen = true → t.InArena h
  older : ∀ h : Nat, t.InArena h → (t.node h).parent < t.records.size
  listed : ∀ h p : Nat, t.InArena h → t.lookup? (t.node h).parent = some p →
    (t.node h).id ∈ (t.node p).children

theorem shelved_initial : (initial : Tree α μ).Shelved 0 :=
  ⟨rooted_initial.keyed, List.nodup_singleton _, rfl,
    fun h hh _ => Nat.lt_one_iff.mp hh ▸ rooted_initial.root_inArena,
    fun h _ => by
      rw [node_initial]
      exact Int.negSucc_lt_zero 0 |>.trans Int.one_pos,
    fun h p _ hfound => by
      rw [node_initial] at hfound
      cases hfound⟩

theorem Shelved.of_sameArena (ht : t.Shelved discarded) (hs : SameArena t t')
    (hopen : ∀ k, (t'.node k).status.isOpen = true → (t.node k).status.isOpen = true) :
    t'.Shelved discarded := by
  refine ⟨hs.keyed ht.keyed, ?_, ?_, fun h hh hstatus => ?_, fun h hin => ?_,
    fun h p hin hfound => ?_⟩
  · rw [hs.arena_eq]
    exact ht.nodup
  · rw [hs.size_eq, Tree.size, hs.arena_eq]
    exact ht.size_eq
  · exact hs.inArena_iff.mpr (ht.stays h (hs.size_eq ▸ hh) (hopen h hstatus))
  · rw [hs.parent_eq, hs.size_eq]
    exact ht.older h (hs.inArena_iff.mp hin)
  · rw [hs.lookup?_eq, hs.parent_eq] at hfound
    rw [hs.id_eq, (hs.node_eq p).2]
    exact ht.listed h p (hs.inArena_iff.mp hin) hfound

theorem Shelved.assign (ht : t.Shelved discarded) (h : Handle) {status : NodeStatus}
    (hopen : status.isOpen = true → (t.node h).status.isOpen = true) :
    (t.modify h fun n => { n with status }).Shelved discarded := by
  refine ht.of_sameArena (t.sameArena_modify h fun _ => ⟨rfl, rfl⟩) fun k hstatus => ?_
  rw [node_modify] at hstatus
  split at hstatus
  · rename_i hk
    rw [hk.1]
    exact hopen hstatus
  · exact hstatus

theorem Shelved.markProcessed (ht : t.Shelved discarded) (h : Handle) {status : NodeStatus}
    (hclosed : status.isOpen = false) : (t.markProcessed h status).Shelved discarded := by
  have hassigned : (t.modify h fun n => { n with status }).Shelved discarded :=
    ht.assign h fun hopen => by
      rw [hclosed] at hopen
      cases hopen
  exact hassigned.of_sameArena ⟨rfl, rfl, rfl, fun _ => ⟨rfl, rfl⟩⟩ fun _ => id

theorem Shelved.pruneOne (ht : t.Shelved discarded) (h : Handle) :
    (t.pruneOne h).2.Shelved discarded := by
  rw [Tree.pruneOne]
  split
  · have hassigned : (t.modify h fun n => { n with status := .prunedBound }).Shelved discarded :=
      ht.assign h fun hopen => by cases hopen
    exact hassigned.of_sameArena ⟨rfl, rfl, rfl, fun _ => ⟨rfl, rfl⟩⟩ fun _ => id
  · exact ht

theorem Shelved.pruneEach (ht : t.Shelved discarded) (hs : List Handle) :
    (t.pruneEach hs).2.Shelved discarded := by
  induction hs generalizing t with
  | nil => exact ht
  | cons h hs ih => exact ih (ht.pruneOne h)

theorem status_createChild (hlt : parent < t.records.size) (d : Decision μ)
    (hk : k ≠ t.records.size) :
    ((t.createChild parent d).2.node k).status = (t.node k).status := by
  rw [node_createChild hlt, if_neg hk]
  split
  · rename_i heq
    rw [heq]
  · rfl

theorem Shelved.listed_createChild (ht : t.Shelved discarded) (hlt : parent < t.records.size)
    (d : Decision μ) {p : Nat} (hin : (t.createChild parent d).2.InArena h)
    (hfound : (t.createChild parent d).2.lookup? ((t.createChild parent d).2.node h).parent =
      some p) :
    ((t.createChild parent d).2.node h).id ∈ ((t.createChild parent d).2.node p).children := by
  have hnext := ht.keyed.size_eq
  rw [lookup?_createChild] at hfound
  rcases (ht.keyed.inArena_createChild hlt d).mp hin with rfl | hold
  · rw [ht.keyed.parent_createChild_new hlt, if_neg (by omega)] at hfound
    obtain ⟨hp, hpid⟩ := ht.keyed.found _ _ hfound
    obtain rfl : parent = p := Int.ofNat.inj hpid
    rw [node_createChild_new hlt, children_createChild hlt d (Nat.ne_of_lt hlt), if_pos rfl]
    exact List.mem_append_right _ (List.mem_singleton_self _)
  · obtain ⟨hid, hparent⟩ := ht.keyed.kept_createChild hlt d hold
    have holder := ht.older h hold
    rw [hparent, if_neg (by omega)] at hfound
    obtain ⟨hp, -⟩ := ht.keyed.found _ _ hfound
    rw [hid, children_createChild hlt d (Nat.ne_of_lt hp)]
    exact List.mem_append_left _ (ht.listed h p hold hfound)

theorem Shelved.createChild (ht : t.Shelved discarded) (hlt : parent < t.records.size)
    (d : Decision μ) : (t.createChild parent d).2.Shelved discarded := by
  have hentered : ∀ {k}, (t.createChild parent d).2.InArena k ↔ k = t.records.size ∨ t.InArena k :=
    ht.keyed.inArena_createChild hlt d
  have hsize : (t.createChild parent d).2.size = t.size + 1 :=
    Mapping.size_put_of_notMem ht.keyed.nextId_notMem_keys t.records.size
  refine ⟨ht.keyed.createChild hlt d, Mapping.nodup_keys_put ht.nodup _ _, ?_, fun h hh hopen => ?_,
    fun h hin => ?_, fun h p hin hfound => ht.listed_createChild hlt d hin hfound⟩
  · rw [size_createChild, hsize, ht.size_eq, Nat.add_right_comm]
  · rw [hentered]
    rw [size_createChild] at hh
    by_cases hnew : h = t.records.size
    · exact .inl hnew
    · rw [status_createChild hlt d hnew] at hopen
      exact .inr (ht.stays h (by omega) hopen)
  · rw [size_createChild]
    rcases hentered.mp hin with rfl | hold
    · rw [ht.keyed.parent_createChild_new hlt]
      omega
    · have holder := ht.older h hold
      rw [(ht.keyed.kept_createChild hlt d hold).2]
      omega

theorem Shelved.createEach (ht : t.Shelved discarded) (hlt : parent < t.records.size)
    (ds : List (Decision μ)) : (t.createEach parent ds).2.Shelved discarded := by
  induction ds generalizing t with
  | nil => exact ht
  | cons d ds ih =>
      exact ih (ht.createChild hlt d)
        (lt_of_lt_of_eq (Nat.lt_succ_of_lt hlt) (t.size_createChild parent d).symm)

/-- Without a parent the children of no node change. -/
theorem without_of_ge (hge : t.records.size ≤ parent) :
    t.without h parent = { t with arena := t.arena.erase (t.node h).id } := by
  have hrecords : ∀ f, t.records.modify parent f = t.records := by
    intro f
    apply Array.ext_getElem?
    intro i
    rw [Array.getElem?_modify]
    split
    · rename_i heq
      rw [← heq, Array.getElem?_eq_none hge, Option.map_none]
    · rfl
  rw [without, modify, hrecords]

/-- A discard fails and changes nothing, or it removes a closed node of the arena. -/
theorem Shelved.discard_cases (ht : t.Shelved discarded) (hlt : h < t.records.size) :
    (∃ fault, t.discard h = (.error fault, t)) ∨
    (t.InArena h ∧ (t.node h).status.isOpen = false ∧
      ∃ p, t.discard h = (.ok (), t.without h p)) := by
  rw [discard]
  split
  · exact .inl ⟨_, rfl⟩
  · rename_i hleaf
    simp only [Bool.not_eq_true, Bool.or_eq_false_iff, Bool.not_eq_false', Node.isProcessed,
      Bool.not_eq_true'] at hleaf
    split
    · exact .inl ⟨_, rfl⟩
    · rename_i hcontains
      rw [Bool.not_eq_true, Bool.not_eq_false'] at hcontains
      have hin := ht.keyed.inArena_of_contains hlt hcontains
      refine .inr ⟨hin, hleaf.1.1, ?_⟩
      dsimp only
      split
      case h_1 hnone => exact ⟨t.records.size, congrArg _ (without_of_ge (Nat.le_refl _)).symm⟩
      case h_2 p hfound =>
        rw [lookup?, Mapping.get?_erase] at hfound
        split at hfound
        · cases hfound
        · exact ⟨p, if_pos (ht.listed h p hin hfound)⟩

theorem sameCount_without (t : Tree α μ) (h parent : Handle) :
    SameCount t (t.without h parent) := by
  have hmodify := sameCount_modify { t with arena := t.arena.erase (t.node h).id } parent
    (f := fun q => { q with children := q.children.erase (t.node h).id }) fun _ => ⟨rfl, rfl⟩
  exact ⟨hmodify.size_eq, hmodify.node_eq, hmodify.stats_eq⟩

theorem mem_children_without {id : Int} (hne : id ≠ (t.node h).id)
    (hmem : id ∈ (t.node k).children) : id ∈ ((t.without h parent).node k).children := by
  rw [without, node_modify]
  split
  · rename_i hk
    rw [hk.1] at hmem
    exact (List.mem_erase_of_ne hne).mpr hmem
  · exact hmem

theorem Shelved.without (ht : t.Shelved discarded) (hin : t.InArena h)
    (hclosed : (t.node h).status.isOpen = false) (parent : Handle) :
    (t.without h parent).Shelved (discarded + 1) := by
  have hremains : ∀ {k}, (t.without h parent).InArena k ↔ t.InArena k ∧ k ≠ h :=
    ht.keyed.inArena_without hin
  have hrecords : (t.without h parent).records.size = t.records.size := size_modify _ _ _
  have hplace := t.place_without h parent
  have hid : (t.node h).id ∈ t.arena.keys := by
    by_contra hmissing
    rw [InArena, lookup?, Mapping.get?_eq_none_iff.mpr hmissing] at hin
    cases hin
  refine ⟨ht.keyed.without h parent, ?_, ?_, fun k hk hopen => ?_, fun k hk => ?_,
    fun k p hk hfound => ?_⟩
  · have hkeys : (t.without h parent).arena.keys = t.arena.keys.filter (· ≠ (t.node h).id) :=
      Mapping.keys_erase t.arena _
    rw [hkeys]
    exact ht.nodup.filter _
  · have hsize : (t.without h parent).size + 1 = t.size := Mapping.size_erase_of_mem ht.nodup hid
    rw [hrecords, ht.size_eq, ← hsize, Nat.add_right_comm, Nat.add_assoc]
  · rw [(sameCount_without t h parent).node_eq k |>.1] at hopen
    refine hremains.mpr ⟨ht.stays k (hrecords ▸ hk) hopen, ?_⟩
    rintro rfl
    rw [hclosed] at hopen
    cases hopen
  · rw [hrecords, Node.parent_of_place (hplace k)]
    exact ht.older k (hremains.mp hk).1
  · obtain ⟨hkin, hne⟩ := hremains.mp hk
    rw [lookup?_without, Node.parent_of_place (hplace k)] at hfound
    split at hfound
    · cases hfound
    · rw [Node.id_of_place (hplace k)]
      refine mem_children_without (fun heq => hne ?_) (ht.listed k p hkin hfound)
      exact ht.keyed.id_inj (ht.keyed.lt_size hkin) (ht.keyed.lt_size hin) heq

theorem Shelved.nodup_values (ht : t.Shelved discarded) : t.arena.values.Nodup := by
  have hkeys : t.arena.keys = t.arena.values.map Int.ofNat := by
    rw [Mapping.keys, Mapping.values, List.map_map]
    refine List.map_congr_left fun e he => ?_
    exact (ht.keyed.found e.1 e.2 ((Mapping.get?_eq_some_iff ht.nodup).mpr he)).2
  exact List.Nodup.of_map Int.ofNat (hkeys ▸ ht.nodup)

theorem Shelved.mem_values (ht : t.Shelved discarded) : h ∈ t.arena.values ↔ t.InArena h := by
  rw [ht.keyed.inArena_iff, Mapping.values, List.mem_map]
  constructor
  · rintro ⟨⟨id, k⟩, hentry, rfl⟩
    have hfound := (Mapping.get?_eq_some_iff ht.nodup).mpr hentry
    exact (ht.keyed.found id k hfound).2 ▸ hfound
  · exact fun hfound => ⟨(h, h), (Mapping.get?_eq_some_iff ht.nodup).mp hfound, rfl⟩

theorem Shelved.countP_values (ht : t.Shelved discarded) :
    t.arena.values.countP (fun h => (t.node h).status.isOpen) = t.census NodeStatus.isOpen := by
  have hperm : (t.arena.values.filter fun h => (t.node h).status.isOpen).Perm
      ((List.range t.records.size).filter fun h => (t.node h).status.isOpen) := by
    refine (List.perm_ext_iff_of_nodup (ht.nodup_values.filter _)
      (List.nodup_range.filter _)).mpr fun h => ?_
    rw [List.mem_filter, List.mem_filter, List.mem_range, ht.mem_values]
    exact ⟨fun hand => ⟨ht.keyed.lt_size hand.1, hand.2⟩,
      fun hand => ⟨ht.stays h hand.1 hand.2, hand.2⟩⟩
  rw [census, List.countP_eq_length_filter, List.countP_eq_length_filter, hperm.length_eq]

/-! ### Sequences of edits -/

/-- Children are created below nodes of this tree, several of them below an open one, and nodes of
this tree are discarded. An open node is closed with a status that is not open. What is assigned are
bounds, and that a pending node is being processed. -/
def Admits (t : Tree α μ) : Edit α μ → Prop
  | .createChild parent _ => parent < t.records.size
  | .createChildren parent _ =>
      parent < t.records.size ∧ (t.node parent).status.isOpen = true
  | .markProcessed h status =>
      h < t.records.size ∧ (t.node h).status.isOpen = true ∧ status.isOpen = false
  | .setStatus h status =>
      h < t.records.size ∧ (t.node h).status = .pending ∧ status = .processing
  | .discard h => h < t.records.size
  | .pruneByBound | .setIncumbent _ | .setLower _ | .setUpper _ | .setBounds .. => True

def AdmitsAll (t : Tree α μ) : List (Edit α μ) → Prop
  | [] => True
  | e :: es => t.Admits e ∧ AdmitsAll (t.perform e).2 es

instance (t : Tree α μ) : DecidablePred t.Admits
  | .createChild .. | .discard _ => inferInstanceAs (Decidable (_ < _))
  | .createChildren .. => inferInstanceAs (Decidable (_ ∧ _))
  | .markProcessed .. | .setStatus .. => inferInstanceAs (Decidable (_ ∧ _ ∧ _))
  | .pruneByBound | .setIncumbent _ | .setLower _ | .setUpper _ | .setBounds .. =>
      inferInstanceAs (Decidable True)

instance decidableAdmitsAll (t : Tree α μ) (es : List (Edit α μ)) : Decidable (t.AdmitsAll es) :=
  match es with
  | [] => inferInstanceAs (Decidable True)
  | _ :: es => @instDecidableAnd _ _ _ (decidableAdmitsAll _ es)

def prunes (t : Tree α μ) : Edit α μ → Nat
  | .pruneByBound => t.pruneByBound.1
  | _ => 0

def discards (t : Tree α μ) : Edit α μ → Nat
  | .discard h =>
      match (t.discard h).1 with
      | .ok _ => 1
      | .error _ => 0
  | _ => 0

/-- The sum over edits of what each counts when its turn comes. -/
def total (count : Tree α μ → Edit α μ → Nat) (t : Tree α μ) : List (Edit α μ) → Nat
  | [] => 0
  | e :: es => count t e + total count (t.perform e).2 es

theorem Counted.perform (ht : t.Counted pruned) (hs : t.Shelved discarded) {e : Edit α μ}
    (he : t.Admits e) : (t.perform e).2.Counted (pruned + t.prunes e) := by
  cases e with
  | createChild parent d => exact ht.createChild parent d
  | createChildren parent ds =>
      have hspawned := spawned_createEach he.1 ds
      obtain ⟨children, hself⟩ := hspawned.self
      refine (ht.createEach parent ds).markProcessed ?_ ?_ rfl
      · rw [hspawned.size_eq]
        exact Nat.lt_add_right _ he.1
      · rw [hself]
        exact he.2
  | markProcessed h status => exact ht.markProcessed he.1 he.2.1 he.2.2
  | pruneByBound =>
      exact ht.pruneEach fun h hh => hs.keyed.lt_size (hs.mem_values.mp hh)
  | setIncumbent | setLower | setUpper =>
      exact ht.of_sameCount ⟨rfl, fun _ => ⟨rfl, rfl⟩, _, _, rfl⟩
  | setStatus h status =>
      obtain ⟨hlt, hpending, rfl⟩ := he
      exact ht.start hlt hpending
  | setBounds h => exact ht.of_sameCount (t.sameCount_modify h fun _ => ⟨rfl, rfl⟩)
  | discard h =>
      rcases hs.discard_cases he with ⟨fault, hfail⟩ | ⟨-, -, p, hdone⟩
      · rw [Tree.perform, hfail]
        exact ht
      · rw [Tree.perform, hdone]
        exact ht.of_sameCount (t.sameCount_without h p)

theorem Shelved.perform (ht : t.Shelved discarded) {e : Edit α μ} (he : t.Admits e) :
    (t.perform e).2.Shelved (discarded + t.discards e) := by
  cases e with
  | createChild parent d => exact ht.createChild he d
  | createChildren parent ds => exact (ht.createEach he.1 ds).markProcessed parent rfl
  | markProcessed h status => exact ht.markProcessed h he.2.2
  | pruneByBound => exact ht.pruneEach t.arena.values
  | setIncumbent | setLower | setUpper =>
      exact ht.of_sameArena ⟨rfl, rfl, rfl, fun _ => ⟨rfl, rfl⟩⟩ fun _ => id
  | setStatus h status =>
      refine ht.assign h fun _ => ?_
      rw [he.2.1]
      rfl
  | setBounds h lower upper value =>
      have hsame : SameCount t (t.perform (.setBounds h lower upper value)).2 :=
        t.sameCount_modify h fun _ => ⟨rfl, rfl⟩
      refine ht.of_sameArena (t.sameArena_modify h fun _ => ⟨rfl, rfl⟩) fun k hopen => ?_
      exact (hsame.node_eq k).1 ▸ hopen
  | discard h =>
      rcases ht.discard_cases he with ⟨fault, hfail⟩ | ⟨hin, hclosed, p, hdone⟩
      · rw [Tree.perform, discards, hfail]
        exact ht
      · rw [Tree.perform, discards, hdone]
        exact ht.without hin hclosed p

theorem Counted.after (ht : t.Counted pruned) (hs : t.Shelved discarded) {es : List (Edit α μ)}
    (hes : t.AdmitsAll es) :
    (t.after es).Counted (pruned + total prunes t es) ∧
      (t.after es).Shelved (discarded + total discards t es) := by
  induction es generalizing t pruned discarded with
  | nil => exact ⟨ht, hs⟩
  | cons e es ih =>
      have hrest := ih (ht.perform hs hes.1) (hs.perform hes.1) hes.2
      rwa [Nat.add_assoc, Nat.add_assoc] at hrest

/-- After any admitted edits the counters say what they are named for: the open nodes are those of
the arena that are pending or being processed, and every status that is counted is that of as many
nodes as its counter says, discarded ones included. Of the nodes ever created, as many have left the
arena as were discarded, and each one is open, or was processed, or was closed by a pruning that
returned it. The greatest depth is that of the deepest node. -/
theorem counters_count (es : List (Edit α μ)) (hes : (initial : Tree α μ).AdmitsAll es) :
    let t := (initial : Tree α μ).after es
    t.stats.opened = t.arena.values.countP (fun h => (t.node h).status.isOpen) ∧
    t.stats.prunedBound = t.census (· == .prunedBound) ∧
    t.stats.prunedInfeasible = t.census (· == .prunedInfeasible) ∧
    t.stats.integer = t.census (· == .integer) ∧
    t.stats.branched = t.census (· == .branched) ∧
    t.stats.created = t.records.size ∧
    t.stats.created = t.size + total discards initial es ∧
    (t.stats.created : Int) = t.stats.opened + t.stats.processed + total prunes initial es ∧
    (∀ h : Nat, h < t.records.size → (t.node h).depth ≤ t.stats.maxDepth) ∧
    ∃ h : Nat, h < t.records.size ∧ (t.node h).depth = t.stats.maxDepth := by
  intro t
  obtain ⟨hcounted, hshelved⟩ : t.Counted _ ∧ t.Shelved _ :=
    counted_initial.after shelved_initial hes
  rw [Nat.zero_add] at hcounted hshelved
  refine ⟨?_, hcounted.tally_eq _ _ rfl, hcounted.tally_eq _ _ rfl, hcounted.tally_eq _ _ rfl,
    hcounted.tally_eq _ _ rfl, hcounted.created_eq, ?_, hcounted.balance, hcounted.depth_le,
    hcounted.depth_eq⟩
  · rw [hshelved.countP_values]
    exact hcounted.opened_eq
  · rw [hcounted.created_eq, hshelved.size_eq]

/-- The root and a child that is being processed are branched. Of the grandchildren one is closed
and becomes the incumbent and the other one is pruned; both are discarded, one of them in vain a
second time, and then so is their parent, below which one more node is created. -/
def closings : List (Edit Numeric.Extended Unit) :=
  [.createChildren 0 [⟨0, ()⟩, ⟨1, ()⟩], .setStatus 1 .processing,
    .createChildren 1 [⟨2, ()⟩, ⟨3, ()⟩], .markProcessed 3 .integer,
    .setBounds 3 (.finite 7) (.finite 7) (.finite 7), .setIncumbent 3,
    .setBounds 4 (.finite 8) .infinity .infinity, .pruneByBound, .discard 3, .discard 4, .discard 4,
    .discard 1, .createChild 1 ⟨4, ()⟩, .setStatus 2 .processing, .markProcessed 2 .fathomed]

theorem counters_count_closings :
    (initial : Tree Numeric.Extended Unit).AdmitsAll closings ∧
    let t := (initial : Tree Numeric.Extended Unit).after closings
    t.stats.opened = 1 ∧ t.stats.processed = 4 ∧ t.stats.created = 6 ∧ t.size = 3 ∧
    t.arena.values.countP (fun h => (t.node h).status.isOpen) = 1 ∧
    t.census (· == .branched) = 2 ∧ t.census (· == .prunedBound) = 1 ∧
    total discards initial closings = 3 ∧ total prunes initial closings = 1 ∧
    ∃ h : Nat, h < t.records.size ∧ (t.node h).depth = 2 := by
  have hadmits : (initial : Tree Numeric.Extended Unit).AdmitsAll closings := by decide +kernel
  obtain ⟨hopened, hbound, -, -, hbranched, -, hleft, hbalance, -, hdepth⟩ :=
    counters_count closings hadmits
  have hstats : let s := ((initial : Tree Numeric.Extended Unit).after closings).stats
      s.created = 6 ∧ s.processed = 4 ∧ s.opened = 1 ∧ s.branched = 2 ∧ s.prunedBound = 1 ∧
        s.maxDepth = 2 := by
    decide +kernel
  obtain ⟨hsix, hfour, hone, htwo, hpruned, hdeep⟩ := hstats
  have hsize : ((initial : Tree Numeric.Extended Unit).after closings).size = 3 := by
    decide +kernel
  refine ⟨hadmits, hone, hfour, hsix, hsize, ?_, hbranched.symm.trans htwo,
    hbound.symm.trans hpruned, ?_, ?_, hdeep ▸ hdepth⟩
  · omega
  · omega
  · omega

end Tree

end TourSearch
