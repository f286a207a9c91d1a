import TourSearch.OpenQueue
import TourSearch.Proofs.Heap
import TourSearch.Proofs.Mapping
import TourSearch.Proofs.Tree
import Mathlib

/-!
Descent in the search tree. Every node but the root has a parent that was there before it, and
inherits the decisions of its parent (`Tree.Descended`). What a node holds as its decisions are
therefore the decisions made on the path from the root (`Tree.PathTo`). Only branching adds nodes,
and nothing changes where a node comes from (`Tree.Continues`).
-/

namespace TourSearch

def Node.origin {α μ : Type} (n : Node α μ) :
    Int × Int × List (Decision μ) × List (Decision μ) := (n.id, n.parent, n.inherited, n.fresh)

theorem Node.decisions_of_origin {α μ : Type} {n n' : Node α μ} (h : n'.origin = n.origin) :
    n'.decisions = n.decisions := by
  simp only [origin, Prod.mk.injEq] at h
  rw [decisions, decisions, h.2.2.1, h.2.2.2]

namespace Tree

variable {α μ : Type} [Scalar α] {t t' t'' : Tree α μ} {h : Handle}

/-- The decisions made on the way from the root to a node, in order. -/
inductive PathTo (t : Tree α μ) : Handle → List (Decision μ) → Prop where
  | root : PathTo t root []
  | child {h parent : Handle} {path : List (Decision μ)}
      (parent_eq : t.lookup? (t.node h).parent = some parent) (above : PathTo t parent path) :
      PathTo t h (path ++ (t.node h).fresh)

/-- Nodes are numbered by their handles and listed in the arena. The root has no parent and no
decisions, and every other node has a parent before it, whose decisions it inherits. -/
structure Descended (t : Tree α μ) : Prop where
  size_eq : t.records.size = t.nextId
  root_known : root < t.records.size
  listed : ∀ h : Nat, h < t.records.size → t.lookup? h = some h
  id_eq : ∀ h : Nat, h < t.records.size → (t.node h).id = h
  unlisted : t.lookup? (-1) = none
  orphan : (t.node root).parent = -1
  of_root : (t.node root).decisions = []
  of_child : ∀ h : Nat, root < h → h < t.records.size → ∃ k : Nat, k < h ∧
    (t.node h).parent = k ∧ (t.node h).inherited = (t.node k).decisions

/-- The decisions of a node are those on its path. -/
theorem Descended.pathTo (ht : t.Descended) (hlt : h < t.records.size) :
    t.PathTo h (t.node h).decisions := by
  induction h using Nat.strong_induction_on with
  | _ h ih =>
      by_cases hroot : h = root
      · rw [hroot, ht.of_root]
        exact .root
      · obtain ⟨k, hk, hparent, hinherited⟩ := ht.of_child h (Nat.pos_of_ne_zero hroot) hlt
        have hk' : k < t.records.size := hk.trans hlt
        have hlisted : t.lookup? (t.node h).parent = some k := by rw [hparent, ht.listed k hk']
        rw [Node.decisions, hinherited]
        exact .child hlisted (ih k hk hk')

theorem Descended.lt_of_pathTo (ht : t.Descended) {path : List (Decision μ)}
    (hpath : t.PathTo h path) : h < t.records.size := by
  cases hpath with
  | root => exact ht.root_known
  | child hparent _ =>
      by_contra hge
      rw [node_of_ge (Nat.le_of_not_lt hge), show (Node.blank : Node α μ).parent = -1 from rfl,
        ht.unlisted] at hparent
      cases hparent

/-- There is one path to a node. -/
theorem Descended.pathTo_iff (ht : t.Descended) (hlt : h < t.records.size)
    {path : List (Decision μ)} : t.PathTo h path ↔ path = (t.node h).decisions := by
  refine ⟨fun hpath => ?_, fun hpath => hpath ▸ ht.pathTo hlt⟩
  induction hpath with
  | root => exact ht.of_root.symm
  | @child h parent path hparent _ ih =>
      by_cases hroot : h = root
      · rw [hroot, ht.orphan, ht.unlisted] at hparent
        cases hparent
      · obtain ⟨k, hk, hkparent, hinherited⟩ := ht.of_child h (Nat.pos_of_ne_zero hroot) hlt
        have hk' : k < t.records.size := hk.trans hlt
        rw [hkparent, ht.listed k hk'] at hparent
        obtain rfl := Option.some.inj hparent
        rw [ih hk', ← hinherited]
        rfl

theorem descended_initial : (initial : Tree α μ).Descended := by
  have hsize : (initial : Tree α μ).records.size = 1 := rfl
  refine ⟨rfl, Nat.one_pos, fun h hh => ?_, fun h hh => ?_, rfl, rfl, rfl, fun h hpos hh => ?_⟩
  · rw [hsize, Nat.lt_one_iff] at hh
    rw [hh]
    rfl
  · rw [hsize, Nat.lt_one_iff] at hh
    rw [hh]
    rfl
  · rw [hsize, Nat.lt_one_iff] at hh
    exact absurd hh (Nat.ne_of_gt hpos)

/-! ### Changes that keep where nodes come from -/

/-- A later state of a tree: it may have new nodes, and old ones come from where they came. -/
structure Continues (t t' : Tree α μ) : Prop where
  size_le : t.records.size ≤ t'.records.size
  origin_eq : ∀ k < t.records.size, (t'.node k).origin = (t.node k).origin
  descended : t.Descended → t'.Descended

theorem Continues.refl (t : Tree α μ) : Continues t t := ⟨Nat.le_refl _, fun _ _ => rfl, id⟩

theorem Continues.trans (h₁ : Continues t t') (h₂ : Continues t' t'') : Continues t t'' :=
  ⟨h₁.size_le.trans h₂.size_le,
    fun k hk => (h₂.origin_eq k (hk.trans_le h₁.size_le)).trans (h₁.origin_eq k hk),
    h₂.descended ∘ h₁.descended⟩

theorem Continues.decisions_eq (hc : Continues t t') (hlt : h < t.records.size) :
    (t'.node h).decisions = (t.node h).decisions := Node.decisions_of_origin (hc.origin_eq h hlt)

/-- A tree with the same nodes, whatever has become of them. -/
theorem continues_of_same (hsize : t'.records.size = t.records.size) (hnext : t'.nextId = t.nextId)
    (harena : t'.arena = t.arena) (horigin : ∀ k, (t'.node k).origin = (t.node k).origin) :
    Continues t t' := by
  refine ⟨hsize.ge, fun k _ => horigin k, fun ht => ?_⟩
  have hfields := fun k => by simpa only [Node.origin, Prod.mk.injEq] using horigin k
  have hdecisions := fun k => Node.decisions_of_origin (horigin k)
  refine ⟨by rw [hsize, hnext, ht.size_eq], by rw [hsize]; exact ht.root_known, fun k hk => ?_,
    fun k hk => ?_, by rw [lookup?, harena]; exact ht.unlisted,
    by rw [(hfields root).2.1, ht.orphan], by rw [hdecisions, ht.of_root], fun k hpos hk => ?_⟩
  · rw [lookup?, harena]
    exact ht.listed k (hsize ▸ hk)
  · rw [(hfields k).1, ht.id_eq k (hsize ▸ hk)]
  · obtain ⟨j, hj, hparent, hinherited⟩ := ht.of_child k hpos (hsize ▸ hk)
    exact ⟨j, hj,
      by rw [(hfields k).2.1, hparent], by rw [(hfields k).2.2.1, hinherited, hdecisions]⟩

theorem continues_modify (t : Tree α μ) (h : Handle) {f : Node α μ → Node α μ}
    (hf : ∀ n, (f n).origin = n.origin) : Continues t (t.modify h f) := by
  refine continues_of_same (t.size_modify h f) rfl rfl fun k => ?_
  rw [node_modify]
  split
  · rename_i hk
    rw [hf, hk.1]
  · rfl

theorem continues_markProcessed (t : Tree α μ) (h : Handle) (status : NodeStatus) :
    Continues t (t.markProcessed h status) := by
  have hmodify := t.continues_modify h (f := fun n => { n with status }) fun _ => rfl
  exact hmodify.trans (continues_of_same rfl rfl rfl fun _ => rfl)

theorem continues_setIncumbent (t : Tree α μ) (h : Handle) : Continues t (t.setIncumbent h) :=
  continues_of_same rfl rfl rfl fun _ => rfl

theorem continues_pruneOne (t : Tree α μ) (h : Handle) : Continues t (t.pruneOne h).2 := by
  unfold pruneOne
  dsimp only
  split
  · have hmodify := t.continues_modify h (f := fun n => { n with status := .prunedBound })
      fun _ => rfl
    exact hmodify.trans (continues_of_same rfl rfl rfl fun _ => rfl)
  · exact Continues.refl t

theorem continues_pruneEach (t : Tree α μ) (hs : List Handle) :
    Continues t (t.pruneEach hs).2 := by
  induction hs generalizing t with
  | nil => exact Continues.refl t
  | cons h hs ih => exact (t.continues_pruneOne h).trans (ih _)

theorem continues_pruneByBound (t : Tree α μ) : Continues t t.pruneByBound.2 :=
  continues_pruneEach t _

/-! ### New nodes -/

/-- A new node is listed last, and inherits from its parent. -/
theorem descended_register (ht : t.Descended) {parent : Nat} (hparent : parent < t.records.size)
    (d : Decision μ) : (t.register (childOf (t.node parent) d)).2.Descended := by
  have hnode := t.node_register (childOf (t.node parent) d)
  have hsize : (t.register (childOf (t.node parent) d)).2.records.size = t.records.size + 1 := by
    simp [register]
  have hold : ∀ k : Nat, k < t.records.size →
      (t.register (childOf (t.node parent) d)).2.node k = t.node k := by
    intro k hk
    rw [hnode, if_neg (Nat.ne_of_lt hk)]
  refine ⟨?_, ?_, fun k hk => ?_, fun k hk => ?_, ?_, ?_, ?_, fun k hpos hk => ?_⟩
  · rw [hsize, ht.size_eq]
    rfl
  · rw [hsize]
    exact Nat.succ_pos _
  · show (t.arena.put (t.nextId : Int) t.records.size).get? (k : Int) = some k
    rw [Mapping.get?_put]
    split
    · rename_i hnext
      rw [Nat.cast_inj] at hnext
      rw [ht.size_eq, hnext]
    · rename_i hnext
      rw [Nat.cast_inj] at hnext
      exact ht.listed k (by rw [hsize] at hk; rw [ht.size_eq] at hk ⊢; omega)
  · by_cases hlast : k = t.records.size
    · rw [hnode, if_pos hlast, hlast, ht.size_eq]
    · rw [hold k (by omega), ht.id_eq k (by omega)]
  · show (t.arena.put (t.nextId : Int) t.records.size).get? (-1) = none
    rw [Mapping.get?_put, if_neg (by omega)]
    exact ht.unlisted
  · rw [hold root ht.root_known, ht.orphan]
  · rw [hold root ht.root_known, ht.of_root]
  · by_cases hlast : k = t.records.size
    · refine ⟨parent, hlast ▸ hparent, ?_, ?_⟩
      · rw [hnode, if_pos hlast]
        exact ht.id_eq parent hparent
      · rw [hnode, if_pos hlast, hold parent hparent]
        rfl
    · obtain ⟨j, hj, hjparent, hinherited⟩ := ht.of_child k hpos (by omega)
      exact ⟨j, hj, by rw [hold k (by omega), hjparent],
        by rw [hold k (by omega), hold j (by omega), hinherited]⟩

theorem continues_createChild (t : Tree α μ) {parent : Nat} (hparent : parent < t.records.size)
    (d : Decision μ) : Continues t (t.createChild parent d).2 := by
  have hregister : Continues t (t.register (childOf (t.node parent) d)).2 := by
    refine ⟨by simp [register], fun k hk => ?_, fun ht => descended_register ht hparent d⟩
    rw [node_register, if_neg (Nat.ne_of_lt hk)]
  exact hregister.trans (continues_modify _ parent fun _ => rfl)

theorem continues_createChildren (t : Tree α μ) {parent : Nat} (hparent : parent < t.records.size)
    (ds : List (Decision μ)) : Continues t (t.createChildren parent ds).2 := by
  have heach : Continues t (t.createEach parent ds).2 := by
    induction ds generalizing t with
    | nil => exact Continues.refl t
    | cons d ds ih =>
        have hfirst := t.continues_createChild hparent d
        exact hfirst.trans (ih _ (Nat.lt_of_lt_of_le hparent hfirst.size_le))
  exact heach.trans (continues_markProcessed _ parent .branched)

theorem mem_createChildren {parent : Nat} (hparent : parent < t.records.size)
    {ds : List (Decision μ)} {k : Nat} (hk : k ∈ (t.createChildren parent ds).1) :
    k < (t.createChildren parent ds).2.records.size := by
  have hspawned := spawned_createEach hparent ds
  rw [show (t.createChildren parent ds).1 = (t.createEach parent ds).1 from rfl, hspawned.handles]
    at hk
  obtain ⟨i, hi, rfl⟩ := List.mem_map.mp hk
  rw [createChildren, size_markProcessed, hspawned.size_eq]
  exact Nat.add_lt_add_left (List.mem_range.mp hi) _

end Tree

/-! ### The queue -/

namespace Heap

variable {β : Type} {before : β → β → Bool}

theorem mem_of_mem_dropMin {heap : Heap β} {x : β} (hx : x ∈ (heap.dropMin before).toList) :
    x ∈ heap.toList := by
  cases hmin : heap.min? with
  | none =>
      have hempty : ¬0 < heap.items.size := by
        have := min?_eq_none_iff.mp hmin
        simpa [toList] using this
      rwa [dropMin, dif_neg hempty] at hx
  | some first =>
      exact (toList_dropMin before hmin).mem_iff.mpr (List.mem_cons_of_mem first hx)

end Heap

namespace OpenQueue

variable {α μ : Type} [Scalar α] {q q' : OpenQueue α} {t : Tree α μ} {size : Nat} {h : Handle}

def Known (q : OpenQueue α) (size : Nat) : Prop := ∀ e ∈ q.heap.toList, e.node < size

omit [Scalar α] in
theorem Known.mono (hq : q.Known size) {size' : Nat} (hle : size ≤ size') : q.Known size' :=
  fun e he => (hq e he).trans_le hle

theorem Known.add (hq : q.Known size) (hlt : h < size) : (q.add t h).Known size := by
  unfold OpenQueue.add
  dsimp only
  split
  · intro e he
    rcases List.mem_cons.mp ((Heap.toList_push Waiting.before q.heap _).mem_iff.mp he) with rfl | he
    · exact hlt
    · exact hq e he
  · exact hq

theorem Known.addAll {hs : List Handle} (hq : q.Known size) (hlt : ∀ h ∈ hs, h < size) :
    (q.addAll t hs).Known size := by
  induction hs generalizing q with
  | nil => exact hq
  | cons h hs ih =>
      exact ih (hq.add (hlt h List.mem_cons_self)) fun k hk => hlt k (List.mem_cons_of_mem h hk)

theorem mem_of_mem_dropClosed {count : Nat} {heap : Heap (Waiting α)} {e : Waiting α}
    (he : e ∈ (dropClosed t count heap).toList) : e ∈ heap.toList := by
  induction count generalizing heap with
  | zero => exact he
  | succ count ih =>
      unfold dropClosed at he
      split at he
      · exact he
      · split at he
        · exact he
        · exact Heap.mem_of_mem_dropMin (ih he)

theorem Known.pop {next : Option Handle} (hq : q.Known size) (hpop : q.pop t = (next, q')) :
    q'.Known size ∧ ∀ h ∈ next, h < size := by
  rw [OpenQueue.pop, settle, Prod.mk.injEq] at hpop
  obtain ⟨rfl, rfl⟩ := hpop
  refine ⟨fun e he => hq e (mem_of_mem_dropClosed (Heap.mem_of_mem_dropMin he)), fun h hh => ?_⟩
  obtain ⟨e, hmin, rfl⟩ := Option.map_eq_some_iff.mp hh
  have hmem : e ∈ (dropClosed t q.heap.size q.heap).toList :=
    (Heap.toList_dropMin Waiting.before hmin).mem_iff.mpr List.mem_cons_self
  exact hq e (mem_of_mem_dropClosed hmem)

theorem Known.prune (hq : q.Known size) : (q.prune t).2.Known size := by
  intro e he
  have hmem := (Heap.toList_ofList Waiting.before _).mem_iff.mp he
  exact hq e (List.mem_filter.mp hmem).1

end OpenQueue

end TourSearch
