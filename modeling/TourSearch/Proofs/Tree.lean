import TourSearch.Tree
import TourSearch.Proofs.Extended
import Mathlib

/-!
The tree by its nodes. Every operation is described by what it does to the node of each handle, to
the number of records and to the upper bound. Pruning closes pending nodes whose bound reaches the
upper bound and leaves all others alone; branching adds one pending node for every decision.
-/

namespace TourSearch

open Numeric

namespace Node

variable {α μ : Type}

theorem isPending_iff {n : Node α μ} : n.isPending = true ↔ n.status = .pending := by
  simp [isPending]

theorem reaches_iff {n : Node Extended μ} {upper tolerance : Extended} :
    n.reaches upper tolerance = true ↔ upper - tolerance ≤ n.lowerBound := by
  simp [reaches]

theorem pruneTolerance_eq : (pruneTolerance : Extended) = .finite (1 / 1000000) :=
  Extended.scalar_millionth

end Node

namespace Tree

variable {α μ : Type} [Scalar α] (t : Tree α μ)

theorem node_modify (h : Handle) (f : Node α μ → Node α μ) (k : Handle) :
    (t.modify h f).node k = if k = h ∧ h < t.records.size then f (t.node h) else t.node k := by
  unfold node modify
  rw [Array.getElem?_modify]
  by_cases hk : k = h
  · subst hk
    by_cases hlt : k < t.records.size
    · simp [hlt]
    · simp [hlt]
  · have hhk : h ≠ k := fun heq => hk heq.symm
    simp [hk, hhk]

theorem node_modify_self {h : Handle} (hlt : h < t.records.size)
    (f : Node α μ → Node α μ) : (t.modify h f).node h = f (t.node h) := by
  rw [node_modify, if_pos ⟨rfl, hlt⟩]

theorem node_modify_of_ne {h k : Handle} (hne : k ≠ h) (f : Node α μ → Node α μ) :
    (t.modify h f).node k = t.node k := by
  rw [node_modify, if_neg fun hand => hne hand.1]

omit [Scalar α] in
@[simp] theorem size_modify (h : Handle) (f : Node α μ → Node α μ) :
    (t.modify h f).records.size = t.records.size := Array.size_modify

omit [Scalar α] in
@[simp] theorem nextId_modify (h : Handle) (f : Node α μ → Node α μ) :
    (t.modify h f).nextId = t.nextId := rfl

omit [Scalar α] in
@[simp] theorem stats_modify (h : Handle) (f : Node α μ → Node α μ) :
    (t.modify h f).stats = t.stats := rfl

omit [Scalar α] in
@[simp] theorem incumbent_modify (h : Handle) (f : Node α μ → Node α μ) :
    (t.modify h f).incumbent = t.incumbent := rfl

/-! ### Closing one node -/

@[simp] theorem node_markProcessed (h : Handle) (status : NodeStatus) (k : Handle) :
    (t.markProcessed h status).node k = (t.modify h fun n => { n with status }).node k := rfl

@[simp] theorem size_markProcessed (h : Handle) (status : NodeStatus) :
    (t.markProcessed h status).records.size = t.records.size := t.size_modify h _

@[simp] theorem nextId_markProcessed (h : Handle) (status : NodeStatus) :
    (t.markProcessed h status).nextId = t.nextId := rfl

@[simp] theorem incumbent_markProcessed (h : Handle) (status : NodeStatus) :
    (t.markProcessed h status).incumbent = t.incumbent := rfl

@[simp] theorem upper_markProcessed (h : Handle) (status : NodeStatus) :
    (t.markProcessed h status).stats.upper = t.stats.upper := by
  unfold markProcessed
  cases status <;> split <;> rfl

@[simp] theorem node_setIncumbent (h k : Handle) : (t.setIncumbent h).node k = t.node k := rfl

@[simp] theorem size_setIncumbent (h : Handle) :
    (t.setIncumbent h).records.size = t.records.size := rfl

@[simp] theorem nextId_setIncumbent (h : Handle) : (t.setIncumbent h).nextId = t.nextId := rfl

@[simp] theorem incumbent_setIncumbent (h : Handle) : (t.setIncumbent h).incumbent = some h := rfl

@[simp] theorem upper_setIncumbent (h : Handle) :
    (t.setIncumbent h).stats.upper = (t.node h).lpValue := rfl

/-! ### Pruning -/

variable {t}

/-- Some pending nodes whose bound reaches the upper bound have been closed. -/
structure Pruned (t t' : Tree Extended μ) : Prop where
  size_eq : t'.records.size = t.records.size
  nextId_eq : t'.nextId = t.nextId
  incumbent_eq : t'.incumbent = t.incumbent
  upper_eq : t'.stats.upper = t.stats.upper
  nodes : ∀ k, t'.node k = t.node k ∨
    ((t.node k).isPending = true ∧
      t.stats.upper - .finite (1 / 1000000) ≤ (t.node k).lowerBound ∧
      t'.node k = { t.node k with status := .prunedBound })

theorem Pruned.refl (t : Tree Extended μ) : Pruned t t :=
  ⟨rfl, rfl, rfl, rfl, fun _ => Or.inl rfl⟩

theorem Pruned.trans {t₁ t₂ t₃ : Tree Extended μ} (h₁ : Pruned t₁ t₂) (h₂ : Pruned t₂ t₃) :
    Pruned t₁ t₃ := by
  refine ⟨h₂.size_eq.trans h₁.size_eq, h₂.nextId_eq.trans h₁.nextId_eq,
    h₂.incumbent_eq.trans h₁.incumbent_eq, h₂.upper_eq.trans h₁.upper_eq, fun k => ?_⟩
  rcases h₁.nodes k with heq | ⟨hpending, hreaches, heq⟩
  · rw [← heq, ← h₁.upper_eq]
    exact h₂.nodes k
  · right
    refine ⟨hpending, hreaches, ?_⟩
    rcases h₂.nodes k with heq' | ⟨hpending', -, -⟩
    · rw [heq', heq]
    · rw [heq] at hpending'
      simp [Node.isPending] at hpending'

theorem pruned_pruneOne (t : Tree Extended μ) (h : Handle) : Pruned t (t.pruneOne h).2 := by
  by_cases hcond :
      ((t.node h).isPending && (t.node h).reaches t.stats.upper Node.pruneTolerance) = true
  · have hnode : ∀ k, (t.pruneOne h).2.node k =
        (t.modify h fun n => { n with status := .prunedBound }).node k := by
      intro k
      simp only [pruneOne, hcond, if_true]
      rfl
    refine ⟨?_, ?_, ?_, ?_, fun k => ?_⟩
    · simp only [pruneOne, hcond, if_true, size_modify]
    · simp only [pruneOne, hcond, if_true, nextId_modify]
    · simp only [pruneOne, hcond, if_true, incumbent_modify]
    · simp only [pruneOne, hcond, if_true]
    · rw [Bool.and_eq_true, Node.reaches_iff, Node.pruneTolerance_eq] at hcond
      rw [hnode, node_modify]
      split
      · rename_i hk
        rw [hk.1]
        exact Or.inr ⟨hcond.1, hcond.2, rfl⟩
      · exact Or.inl rfl
  · simp only [pruneOne, hcond, Bool.false_eq_true, if_false]
    exact Pruned.refl t

theorem pruned_pruneEach (t : Tree Extended μ) (hs : List Handle) :
    Pruned t (t.pruneEach hs).2 := by
  induction hs generalizing t with
  | nil => exact Pruned.refl t
  | cons h hs ih => exact (pruned_pruneOne t h).trans (ih _)

theorem pruned_pruneByBound (t : Tree Extended μ) : Pruned t t.pruneByBound.2 :=
  pruned_pruneEach t _

/-! ### Branching -/

/-- The tree after children were created: the new nodes stand at the end, and apart from its list of
children the parent is as before. -/
structure Spawned (t : Tree α μ) (parent : Nat) (ds : List (Decision μ))
    (hs : List Handle) (t' : Tree α μ) : Prop where
  size_eq : t'.records.size = t.records.size + ds.length
  nextId_eq : t'.nextId = t.nextId + ds.length
  incumbent_eq : t'.incumbent = t.incumbent
  upper_eq : t'.stats.upper = t.stats.upper
  handles : hs = (List.range ds.length).map (t.records.size + ·)
  old : ∀ k : Nat, k < t.records.size → k ≠ parent → t'.node k = t.node k
  self : ∃ children, t'.node parent = { t.node parent with children }
  new : ∀ (i : Nat) (d : Decision μ), ds[i]? = some d → t'.node (t.records.size + i) =
    { childOf (t.node parent) d with id := t.nextId + i }

theorem childOf_children (n : Node α μ) (children : List Int) (d : Decision μ) :
    childOf { n with children } d = childOf n d := rfl

theorem node_register (t : Tree α μ) (n : Node α μ) (k : Nat) :
    (t.register n).2.node k =
      if k = t.records.size then { n with id := t.nextId } else t.node k := by
  unfold node register
  simp only [Array.getElem?_push]
  split
  · rfl
  · rfl

theorem spawned_createChild {t : Tree α μ} {parent : Nat}
    (hparent : parent < t.records.size) (d : Decision μ) :
    Spawned t parent [d] [(t.createChild parent d).1] (t.createChild parent d).2 := by
  have hsize : (t.register (childOf (t.node parent) d)).2.records.size = t.records.size + 1 := by
    simp [register]
  have hnode : ∀ k, (t.createChild parent d).2.node k =
      ((t.register (childOf (t.node parent) d)).2.modify parent
        fun n => { n with children := n.children ++ [(t.nextId : Int)] }).node k := fun _ => rfl
  refine ⟨by simp [createChild, hsize], rfl, rfl, rfl, rfl, fun k hk hne => ?_, ?_, ?_⟩
  · rw [hnode, node_modify_of_ne _ hne, node_register, if_neg (by omega)]
  · refine ⟨(t.node parent).children ++ [(t.nextId : Int)], ?_⟩
    have hlt : parent < (t.register (childOf (t.node parent) d)).2.records.size := by omega
    rw [hnode, node_modify_self _ hlt, node_register, if_neg (Nat.ne_of_lt hparent)]
  · intro i d' hi
    rw [List.getElem?_singleton] at hi
    split at hi
    · rename_i hzero
      have hne : t.records.size + i ≠ parent := by omega
      rw [← Option.some.inj hi, hnode, node_modify_of_ne _ hne, node_register, hzero, Nat.add_zero,
        if_pos rfl]
      simp
    · cases hi

theorem Spawned.append {t t₁ t₂ : Tree α μ} {parent : Nat} {ds es : List (Decision μ)}
    {hs ks : List Handle} (hparent : parent < t.records.size) (h₁ : Spawned t parent ds hs t₁)
    (h₂ : Spawned t₁ parent es ks t₂) : Spawned t parent (ds ++ es) (hs ++ ks) t₂ := by
  obtain ⟨children, hself⟩ := h₁.self
  refine ⟨?_, ?_, h₂.incumbent_eq.trans h₁.incumbent_eq, h₂.upper_eq.trans h₁.upper_eq, ?_,
    fun k hk hne => ?_, ?_, fun i d hi => ?_⟩
  · rw [h₂.size_eq, h₁.size_eq, List.length_append, Nat.add_assoc]
  · rw [h₂.nextId_eq, h₁.nextId_eq, List.length_append, Nat.add_assoc]
  · rw [h₁.handles, h₂.handles, h₁.size_eq, List.length_append, List.range_add, List.map_append,
      List.map_map]
    congr 1
    apply List.map_congr_left
    intro i _
    simp [Nat.add_assoc]
  · rw [h₂.old k (by rw [h₁.size_eq]; omega) hne, h₁.old k hk hne]
  · obtain ⟨children', hself'⟩ := h₂.self
    exact ⟨children', by rw [hself', hself]⟩
  · by_cases hlt : i < ds.length
    · rw [List.getElem?_append_left hlt] at hi
      rw [h₂.old _ (by rw [h₁.size_eq]; omega) (by omega), h₁.new i d hi]
    · rw [List.getElem?_append_right (by omega)] at hi
      have hnew := h₂.new (i - ds.length) d hi
      rw [h₁.size_eq, hself, childOf_children, h₁.nextId_eq] at hnew
      have hindex : t.records.size + ds.length + (i - ds.length) = t.records.size + i := by omega
      rw [hindex] at hnew
      rw [hnew, show ((t.nextId + ds.length : Nat) : Int) + (i - ds.length : Nat) = t.nextId + i by
        omega]

theorem spawned_createEach {t : Tree α μ} {parent : Nat}
    (hparent : parent < t.records.size) (ds : List (Decision μ)) :
    Spawned t parent ds (t.createEach parent ds).1 (t.createEach parent ds).2 := by
  induction ds generalizing t with
  | nil => exact ⟨rfl, rfl, rfl, rfl, rfl, fun _ _ _ => rfl, ⟨_, rfl⟩, by simp⟩
  | cons d ds ih =>
      have hfirst := spawned_createChild hparent d
      have hrest := ih (t := (t.createChild parent d).2) (by rw [hfirst.size_eq]; omega)
      exact hfirst.append hparent hrest

theorem node_of_ge {t : Tree α μ} {h : Nat} (hge : t.records.size ≤ h) : t.node h = Node.blank := by
  simp [node, Array.getElem?_eq_none hge]

theorem lt_of_status {t : Tree α μ} {h : Nat} (hstatus : (t.node h).status ≠ .pending) :
    h < t.records.size := by
  by_contra hge
  exact hstatus (congrArg Node.status (node_of_ge (Nat.le_of_not_lt hge)))

theorem node_initial (h : Handle) : (initial : Tree α μ).node h = Node.blank := by
  cases h with
  | zero => rfl
  | succ h => exact node_of_ge (Nat.le_add_left 1 h)

structure Branched (t : Tree α μ) (parent : Nat) (ds : List (Decision μ))
    (hs : List Handle) (t' : Tree α μ) : Prop where
  size_eq : t'.records.size = t.records.size + ds.length
  nextId_eq : t'.nextId = t.nextId + ds.length
  incumbent_eq : t'.incumbent = t.incumbent
  upper_eq : t'.stats.upper = t.stats.upper
  handles : hs = (List.range ds.length).map (t.records.size + ·)
  old : ∀ k : Nat, k < t.records.size → k ≠ parent → t'.node k = t.node k
  self : ∃ children, t'.node parent = { t.node parent with children, status := .branched }
  new : ∀ (i : Nat) (d : Decision μ), ds[i]? = some d → t'.node (t.records.size + i) =
    { childOf (t.node parent) d with id := t.nextId + i }

theorem branched_createChildren {t : Tree α μ} {parent : Nat} (hparent : parent < t.records.size)
    (ds : List (Decision μ)) :
    Branched t parent ds (t.createChildren parent ds).1 (t.createChildren parent ds).2 := by
  have hspawned := spawned_createEach hparent ds
  have hlt : parent < (t.createEach parent ds).2.records.size := by
    rw [hspawned.size_eq]
    omega
  have hnode : ∀ k, (t.createChildren parent ds).2.node k =
      ((t.createEach parent ds).2.modify parent fun n => { n with status := .branched }).node k :=
    fun _ => rfl
  obtain ⟨children, hself⟩ := hspawned.self
  refine ⟨?_, hspawned.nextId_eq, hspawned.incumbent_eq, ?_, hspawned.handles, fun k hk hne => ?_,
    ⟨children, ?_⟩, fun i d hi => ?_⟩
  · exact (size_markProcessed _ _ _).trans hspawned.size_eq
  · exact (upper_markProcessed _ _ _).trans hspawned.upper_eq
  · rw [hnode, node_modify_of_ne _ hne, hspawned.old k hk hne]
  · rw [hnode, node_modify_self _ hlt, hself]
  · have hne : t.records.size + i ≠ parent := by omega
    rw [hnode, node_modify_of_ne _ hne, hspawned.new i d hi]

/-- An old node keeps everything but its children and its status. -/
theorem Branched.old_node {t t' : Tree α μ} {parent : Nat} {ds : List (Decision μ)}
    {hs : List Handle} (hb : Branched t parent ds hs t') {k : Nat} (hlt : k < t.records.size) :
    ∃ children status, t'.node k = { t.node k with children, status } := by
  by_cases hparent : k = parent
  · obtain ⟨children, hself⟩ := hb.self
    exact ⟨children, .branched, hparent ▸ hself⟩
  · exact ⟨(t.node k).children, (t.node k).status, hb.old k hlt hparent⟩

theorem Branched.cases {t t' : Tree α μ} {parent : Nat} {ds : List (Decision μ)} {hs : List Handle}
    (hb : Branched t parent ds hs t') (k : Nat) :
    (k < t.records.size ∧ (t'.node k).id = (t.node k).id ∧
      (t'.node k).decisions = (t.node k).decisions ∧
      (t'.node k).lowerBound = (t.node k).lowerBound) ∨
    (∃ i d, k = t.records.size + i ∧ ds[i]? = some d ∧
      t'.node k = { childOf (t.node parent) d with id := t.nextId + i }) ∨
    (t'.records.size ≤ k ∧ t'.node k = Node.blank) := by
  by_cases hlt : k < t.records.size
  · left
    obtain ⟨children, status, hold⟩ := hb.old_node hlt
    rw [hold]
    exact ⟨hlt, rfl, rfl, rfl⟩
  · right
    by_cases hnew : k < t'.records.size
    · left
      have hi : k - t.records.size < ds.length := by
        rw [hb.size_eq] at hnew
        omega
      have hk : k = t.records.size + (k - t.records.size) := by omega
      refine ⟨k - t.records.size, ds.get ⟨_, hi⟩, hk, List.getElem?_eq_getElem hi, ?_⟩
      have := hb.new _ _ (List.getElem?_eq_getElem hi)
      rw [← hk] at this
      exact this
    · exact Or.inr ⟨Nat.le_of_not_lt hnew, node_of_ge (Nat.le_of_not_lt hnew)⟩

end Tree

end TourSearch
