import TourSearch.Proofs.Search.OpenNodes
import Mathlib

/-!
How the tree of a search grows that branches on edges. A step leaves the nodes what they are
(`Tree.Retains`) or splits the node in hand on a fractional edge, and does nothing else to the tree
(`Grows`). So decisions are known by their stamps (`Tree.Grown`), and a node is as deep as its path
is long (`Tree.Measured`). If nodes are only split on edges about which nothing was decided on their
paths, the decisions of every path are about different edges (`Orderly`).
-/

namespace TourSearch

open Numeric

/-! ### Decisions on a path -/

def Decision.key (d : Decision Move) : VertexSet := d.move.edge.key

theorem Move.notMem_restrict {m : Move} {r : Restrictions} {k : VertexSet} (hne : k ≠ m.edge.key)
    (hfree : k ∉ r.fixed ∧ k ∉ r.forbidden) :
    k ∉ (m.restrict r).fixed ∧ k ∉ (m.restrict r).forbidden := by
  cases m with
  | fix e => exact ⟨fun h => (SortedSet.mem_insert.mp h).elim hne hfree.1, hfree.2⟩
  | remove e => exact ⟨hfree.1, fun h => (SortedSet.mem_insert.mp h).elim hne hfree.2⟩

namespace Trail

/-- Decisions about different edges that are free can be applied. -/
theorem exists_applyAll {path : List (Decision Move)} {r : Restrictions}
    (hnodup : (path.map Decision.key).Nodup)
    (hfree : ∀ d ∈ path, d.key ∉ r.fixed ∧ d.key ∉ r.forbidden) :
    ∃ r', applyAll moveAct path r = .ok r' := by
  induction path generalizing r with
  | nil => exact ⟨r, rfl⟩
  | cons d path ih =>
      rw [List.map_cons, List.nodup_cons] at hnodup
      obtain ⟨hfixed, hforbidden⟩ := hfree d List.mem_cons_self
      have hact : moveAct .apply d r = .ok (d.move.restrict r) :=
        Move.act_apply_eq_ok.mpr ⟨hfixed, hforbidden, rfl⟩
      obtain ⟨r', hr'⟩ := ih (r := d.move.restrict r) hnodup.2 fun e he =>
        Move.notMem_restrict (fun heq => hnodup.1 (List.mem_map.mpr ⟨e, he, heq⟩))
          (hfree e (List.mem_cons_of_mem d he))
      exact ⟨r', by rw [applyAll, hact]; exact hr'⟩

theorem restricted_of_mem {path : List (Decision Move)} {r r' : Restrictions}
    (h : applyAll moveAct path r = .ok r') {d : Decision Move} (hd : d ∈ path) :
    d.key ∈ r'.fixed ∨ d.key ∈ r'.forbidden := by
  obtain ⟨hfixed, hforbidden⟩ := mem_applyAll h d.key
  cases hmove : d.move with
  | fix e =>
      refine Or.inl (hfixed.mpr (Or.inr (List.mem_filterMap.mpr ⟨d, hd, ?_⟩)))
      rw [Decision.key, hmove]
      rfl
  | remove e =>
      refine Or.inr (hforbidden.mpr (Or.inr (List.mem_filterMap.mpr ⟨d, hd, ?_⟩)))
      rw [Decision.key, hmove]
      rfl

end Trail

/-- Decisions about different edges, out of the given ones. -/
structure Orderly (keys : Finset VertexSet) (path : List (Decision Move)) : Prop where
  within : ∀ d ∈ path, d.key ∈ keys
  nodup : (path.map Decision.key).Nodup

namespace Orderly

variable {keys : Finset VertexSet} {path : List (Decision Move)}

theorem nil (keys : Finset VertexSet) : Orderly keys [] := ⟨by simp, List.nodup_nil⟩

theorem concat (h : Orderly keys path) {d : Decision Move} (hkey : d.key ∈ keys)
    (hnew : d.key ∉ path.map Decision.key) : Orderly keys (path ++ [d]) := by
  refine ⟨fun e he => ?_, ?_⟩
  · rcases List.mem_append.mp he with he | he
    · exact h.within e he
    · exact List.mem_singleton.mp he ▸ hkey
  · rw [List.map_append, List.map_singleton, ← List.concat_eq_append, List.nodup_concat]
    exact ⟨hnew, h.nodup⟩

theorem length_le (h : Orderly keys path) : path.length ≤ keys.card := by
  have hsub : (path.map Decision.key).toFinset ⊆ keys := by
    intro k hk
    obtain ⟨d, hd, rfl⟩ := List.mem_map.mp (List.mem_toFinset.mp hk)
    exact h.within d hd
  simpa [List.toFinset_card_of_nodup h.nodup] using Finset.card_le_card hsub

theorem applicable (h : Orderly keys path) :
    ∃ r, Trail.applyAll Trail.moveAct path Restrictions.empty = .ok r :=
  Trail.exists_applyAll h.nodup fun _ _ => ⟨List.not_mem_nil, List.not_mem_nil⟩

end Orderly

/-! ### Changes that keep the nodes -/

namespace Tree

variable {μ : Type} {t t' t'' : Tree Extended μ} {h : Handle}

structure Retains (t t' : Tree Extended μ) : Prop where
  size_eq : t'.records.size = t.records.size
  nextId_eq : t'.nextId = t.nextId
  maxDepth_eq : t'.stats.maxDepth = t.stats.maxDepth
  origin_eq : ∀ k, (t'.node k).origin = (t.node k).origin
  depth_eq : ∀ k, (t'.node k).depth = (t.node k).depth
  bounded : ∀ k, (t.node k).lowerBound ≠ .undefined → (t'.node k).lowerBound ≠ .undefined
  branched : ∀ k, (t.node k).status = .branched → (t'.node k).status = .branched

theorem Retains.refl (t : Tree Extended μ) : t.Retains t :=
  ⟨rfl, rfl, rfl, fun _ => rfl, fun _ => rfl, fun _ => id, fun _ => id⟩

theorem Retains.trans (h₁ : t.Retains t') (h₂ : t'.Retains t'') : t.Retains t'' :=
  ⟨h₂.size_eq.trans h₁.size_eq, h₂.nextId_eq.trans h₁.nextId_eq,
    h₂.maxDepth_eq.trans h₁.maxDepth_eq, fun k => (h₂.origin_eq k).trans (h₁.origin_eq k),
    fun k => (h₂.depth_eq k).trans (h₁.depth_eq k), fun k => h₂.bounded k ∘ h₁.bounded k,
    fun k => h₂.branched k ∘ h₁.branched k⟩

theorem Retains.decisions_eq (hr : t.Retains t') (k : Handle) :
    (t'.node k).decisions = (t.node k).decisions := Node.decisions_of_origin (hr.origin_eq k)

theorem retains_modify {f : Node Extended μ → Node Extended μ}
    (hstatus : (t.node h).status ≠ .branched) (horigin : (f (t.node h)).origin = (t.node h).origin)
    (hdepth : (f (t.node h)).depth = (t.node h).depth)
    (hbound : (t.node h).lowerBound ≠ .undefined → (f (t.node h)).lowerBound ≠ .undefined) :
    t.Retains (t.modify h f) := by
  refine ⟨t.size_modify h f, rfl, rfl, fun k => ?_, fun k => ?_, fun k => ?_, fun k => ?_⟩ <;>
    rw [node_modify] <;> split
  · rename_i hk
    rw [horigin, hk.1]
  · rfl
  · rename_i hk
    rw [hdepth, hk.1]
  · rfl
  · rename_i hk
    exact hk.1 ▸ hbound
  · exact id
  · rename_i hk
    exact fun hbranched => absurd (hk.1 ▸ hbranched) hstatus
  · exact id

theorem maxDepth_markProcessed (t : Tree Extended μ) (h : Handle) (status : NodeStatus) :
    (t.markProcessed h status).stats.maxDepth = t.stats.maxDepth := by
  unfold markProcessed
  cases status <;> split <;> rfl

theorem retains_markProcessed (hstatus : (t.node h).status ≠ .branched) (status : NodeStatus) :
    t.Retains (t.markProcessed h status) := by
  have hmodify : t.Retains (t.modify h fun n => { n with status }) :=
    retains_modify hstatus rfl rfl id
  exact ⟨hmodify.size_eq, rfl, t.maxDepth_markProcessed h status, hmodify.origin_eq,
    hmodify.depth_eq, hmodify.bounded, hmodify.branched⟩

theorem maxDepth_pruneEach (t : Tree Extended μ) (hs : List Handle) :
    (t.pruneEach hs).2.stats.maxDepth = t.stats.maxDepth := by
  induction hs generalizing t with
  | nil => rfl
  | cons h hs ih =>
      refine (ih (t.pruneOne h).2).trans ?_
      unfold pruneOne
      dsimp only
      split <;> rfl

theorem retains_pruneByBound (t : Tree Extended μ) : t.Retains t.pruneByBound.2 := by
  have hpruned := pruned_pruneByBound t
  -- Pruning changes nothing of a node but its status, and that only if the node is pending.
  have hnode : ∀ k, ∃ status, t.pruneByBound.2.node k = { t.node k with status } ∧
      ((t.node k).status = .branched → status = .branched) := by
    intro k
    rcases hpruned.nodes k with heq | ⟨hpending, -, heq⟩
    · exact ⟨(t.node k).status, heq, id⟩
    · refine ⟨.prunedBound, heq, fun hbranched => ?_⟩
      rw [Node.isPending_iff, hbranched] at hpending
      cases hpending
  refine ⟨hpruned.size_eq, hpruned.nextId_eq, t.maxDepth_pruneEach _, fun k => ?_, fun k => ?_,
    fun k hbound => ?_, fun k hbranched => ?_⟩
  · obtain ⟨status, heq, -⟩ := hnode k
    rw [heq]
    rfl
  · obtain ⟨status, heq, -⟩ := hnode k
    rw [heq]
  · obtain ⟨status, heq, -⟩ := hnode k
    exact (congrArg Node.lowerBound heq).trans_ne hbound
  · obtain ⟨status, heq, hstatus⟩ := hnode k
    exact (congrArg Node.status heq).trans (hstatus hbranched)

/-! ### New nodes -/

/-- Branching raises the greatest depth to that of the children at most. -/
theorem maxDepth_createChildren_le {parent : Nat} (hparent : parent < t.records.size)
    (ds : List (Decision μ)) : (t.createChildren parent ds).2.stats.maxDepth ≤
      max t.stats.maxDepth ((t.node parent).depth + 1) := by
  have heach : (t.createEach parent ds).2.stats.maxDepth ≤
      max t.stats.maxDepth ((t.node parent).depth + 1) := by
    induction ds generalizing t with
    | nil => exact Int.le_max_left _ _
    | cons d ds ih =>
        have hfirst := spawned_createChild hparent d
        obtain ⟨children, hself⟩ := hfirst.self
        have hrest := ih (t := (t.createChild parent d).2) (by rw [hfirst.size_eq]; omega)
        rw [hself] at hrest
        have hmax : (t.createChild parent d).2.stats.maxDepth =
            max t.stats.maxDepth ((t.node parent).depth + 1) := rfl
        rw [hmax, Int.max_assoc, Int.max_self] at hrest
        exact hrest
  exact (maxDepth_markProcessed _ parent .branched).trans_le heach

structure Measured (t : Tree Extended μ) : Prop where
  depth_eq : ∀ k, (t.node k).depth = (t.node k).decisions.length
  attained : ∃ k < t.records.size, t.stats.maxDepth ≤ (t.node k).depth

theorem measured_initial : (initial : Tree Extended μ).Measured := by
  refine ⟨fun k => ?_, root, Nat.one_pos, Int.le_refl 0⟩
  rw [node_initial]
  rfl

theorem Measured.retains (ht : t.Measured) (hr : t.Retains t') : t'.Measured := by
  obtain ⟨k, hk, hmax⟩ := ht.attained
  refine ⟨fun j => ?_, k, hk.trans_eq hr.size_eq.symm, ?_⟩
  · rw [hr.depth_eq, hr.decisions_eq]
    exact ht.depth_eq j
  · rw [hr.maxDepth_eq, hr.depth_eq]
    exact hmax

theorem Measured.branch (ht : t.Measured) {parent : Nat} {ds : List (Decision μ)}
    (hparent : parent < t.records.size) (hne : ds ≠ []) :
    (t.createChildren parent ds).2.Measured := by
  have hb := branched_createChildren hparent ds
  have hmaxDepth := maxDepth_createChildren_le hparent ds
  have hold : ∀ k < t.records.size,
      ((t.createChildren parent ds).2.node k).depth = (t.node k).depth ∧
        ((t.createChildren parent ds).2.node k).decisions = (t.node k).decisions := by
    intro k hk
    obtain ⟨children, status, heq⟩ := hb.old_node hk
    rw [heq]
    exact ⟨rfl, rfl⟩
  refine ⟨fun k => ?_, ?_⟩
  · rcases hb.cases k with ⟨hk, -⟩ | ⟨i, d, -, -, hnew⟩ | ⟨-, hblank⟩
    · rw [(hold k hk).1, (hold k hk).2]
      exact ht.depth_eq k
    · rw [hnew]
      show (t.node parent).depth + 1 = ((t.node parent).decisions ++ [d]).length
      rw [ht.depth_eq, List.length_append, List.length_singleton]
      push_cast
      rfl
    · rw [hblank]
      rfl
  · rcases Int.le_total (t.stats.maxDepth) ((t.node parent).depth + 1) with hle | hle
    · -- The first child is as deep as any node.
      rw [Int.max_eq_right hle] at hmaxDepth
      obtain ⟨d, rest, rfl⟩ := List.exists_cons_of_ne_nil hne
      refine ⟨t.records.size + 0, ?_, ?_⟩
      · rw [hb.size_eq, List.length_cons]
        omega
      · rw [hb.new 0 d rfl]
        exact hmaxDepth
    · rw [Int.max_eq_left hle] at hmaxDepth
      obtain ⟨k, hk, hmax⟩ := ht.attained
      refine ⟨k, by rw [hb.size_eq]; omega, ?_⟩
      rw [(hold k hk).1]
      exact hmaxDepth.trans hmax

theorem Grown.retains {t t' : Tree Extended Move} (ht : t.Grown) (hr : t.Retains t') :
    t'.Grown := by
  refine ht.congr hr.size_eq hr.nextId_eq fun k => ⟨?_, hr.decisions_eq k, ?_, hr.branched k⟩
  · exact congrArg Prod.fst (hr.origin_eq k)
  · exact hr.bounded k (ht.bounded k)

end Tree

/-! ### What steps do to the tree -/

namespace Search

variable {σ : Type} {p : Problem Extended Move σ} {config : SearchConfig Extended}
  {start run run' : Run Extended Move σ} {place place' : Place Extended} {h : Handle}
  {t t' : Tree Extended Move} {keys : Finset VertexSet} {tolerance : Extended}

def splitOn (id : Int) (e : Edge) : List (Decision Move) :=
  [⟨2 * id.toNat, .fix e⟩, ⟨2 * id.toNat + 1, .remove e⟩]

/-- A step keeps the nodes, or a node whose answer is not integral is split on a fractional edge. -/
inductive Grows (tolerance : Extended) : Place Extended → Tree Extended Move →
    Tree Extended Move → Prop where
  | keeps {place : Place Extended} {t t' : Tree Extended Move} (retained : t.Retains t') :
      Grows tolerance place t t'
  | splits {h : Handle} {z x : Extended} {values : EdgeValues Extended} {e : Edge}
      {t t₁ : Tree Extended Move} (entry : (e, x) ∈ values.entries)
      (fractional : Fractional tolerance x) (retained : t.Retains t₁)
      (known : h < t₁.records.size) (unbranched : (t₁.node h).status ≠ .branched) :
      Grows tolerance (.closing h (.solved z values)) t
        (t₁.createChildren h (splitOn (t₁.node h).id e)).2

theorem Closes.grows {answer : Answer Extended} (hcloses : Closes p config h run answer run')
    (hbranching : BranchesOnEdges p config.integralityTolerance)
    (hprocessing : (run.tree.node h).status = .processing) :
    Grows config.integralityTolerance (.closing h answer) run.tree run'.tree := by
  have hlt : h < run.tree.records.size := Tree.lt_of_status (by simp [hprocessing])
  have hopen : (run.tree.node h).status ≠ .branched := by simp [hprocessing]
  have hself (z : Extended) : (solvedTree run.tree h z).node h = solvedNode z (run.tree.node h) :=
    run.tree.node_modify_self hlt (solvedNode z)
  have hopenSolved (z : Extended) : ((solvedTree run.tree h z).node h).status ≠ .branched := by
    rw [hself]
    exact hopen
  have hsolved (z : Extended) : run.tree.Retains (solvedTree run.tree h z) :=
    Tree.retains_modify hopen rfl rfl larger_ne_undefined
  cases hcloses with
  | infeasible => exact .keeps (Tree.retains_markProcessed hopen _)
  | @hopeless z => exact .keeps ((hsolved z).trans (Tree.retains_markProcessed (hopenSolved z) _))
  | @incumbent z values =>
      have hnoted : (solvedTree run.tree h z).Retains ((solvedTree run.tree h z).modify h
          fun n => { n with isInteger := true, solution := values }) :=
        Tree.retains_modify (hopenSolved z) rfl rfl id
      have hmarked := Tree.retains_markProcessed (t := (solvedTree run.tree h z).modify h
        fun n => { n with isInteger := true, solution := values }) (h := h) (by
          rw [Tree.node_modify_self _ (hlt.trans_eq (hsolved z).size_eq.symm)]
          exact hopenSolved z) .integer
      have haccepted : (solvedTree run.tree h z).Retains
          (accepted (solvedTree run.tree h z) h values) :=
        hnoted.trans ⟨hmarked.size_eq, rfl, hmarked.maxDepth_eq, hmarked.origin_eq,
          hmarked.depth_eq, hmarked.bounded, hmarked.branched⟩
      exact .keeps (((hsolved z).trans haccepted).trans (Tree.retains_pruneByBound _))
  | @givenUp z => exact .keeps ((hsolved z).trans (Tree.retains_markProcessed (hopenSolved z) _))
  | @branched z values cs c w _ fractional proposed best =>
      obtain ⟨-, c', hbest, e, x, hentry, hfractional, hdecisions⟩ :=
        splits_of_fractional hbranching fractional proposed
      obtain rfl := Option.some.inj (best.symm.trans hbest)
      show Grows _ _ _ ((solvedTree run.tree h z).createChildren h c.decisions).2
      rw [hdecisions]
      exact .splits hentry hfractional (hsolved z) (hlt.trans_eq (hsolved z).size_eq.symm)
        (hopenSolved z)

theorem grows_of_gives (hbranching : BranchesOnEdges p config.integralityTolerance)
    (hafter : KeepsTree p) (hfits : run.queue.Fits run.tree)
    (hhand : ∀ h ∈ place.hand, (run.tree.node h).status = .processing)
    (next : (advance p config place).Gives run place' run') :
    Grows config.integralityTolerance place run.tree run'.tree := by
  cases moves_of_gives next with
  | done => exact .keeps (.refl _)
  | drained => exact .keeps (.refl _)
  | taken popped kept =>
      obtain ⟨-, hpending, -⟩ := hfits.pop_some popped
      rw [Node.isPending_iff] at hpending
      rw [kept.tree]
      exact .keeps (Tree.retains_modify (by simp [hpending]) rfl rfl id)
  | moved move =>
      obtain ⟨trail, world, -, rfl⟩ := gives_goTo.mp move
      exact .keeps (.refl _)
  | again round => exact .keeps ((rounds_of_gives round).1.tree ▸ .refl _)
  | answered round => exact .keeps ((rounds_of_gives round).1.tree ▸ .refl _)
  | closed close => exact (closes_of_gives close).grows hbranching (hhand _ rfl)
  | returned after =>
      obtain rfl := hafter after
      exact .keeps (.refl _)
  | rested => exact .keeps (.refl _)

/-! ### What is kept as the tree grows -/

/-- In a tree that has grown by branching, decisions are known by their stamps. -/
theorem identified_allDecisions (ht : t.Grown) : Decision.Identified (allDecisions t) := by
  have hmem : ∀ d ∈ allDecisions t, ∃ k, d ∈ (t.node k).decisions := by
    intro d hd
    obtain ⟨n, hn, hd⟩ := List.mem_flatMap.mp hd
    obtain ⟨k, hk⟩ := List.mem_iff_getElem?.mp hn
    refine ⟨k, ?_⟩
    rw [Tree.node, ← Array.getElem?_toList, hk]
    exact hd
  intro d hd e he
  obtain ⟨k, hk⟩ := hmem d hd
  obtain ⟨j, hj⟩ := hmem e he
  exact ht.identified k j d hk e hj

theorem Grows.grown (hgrows : Grows tolerance place t t') (ht : t.Grown) : t'.Grown := by
  cases hgrows with
  | keeps retained => exact ht.retains retained
  | splits _ _ retained known unbranched =>
      have ht₁ := ht.retains retained
      refine (Tree.branched_createChildren known _).grown ht₁ known unbranched ?_ ?_
      · rw [ht₁.id_eq _ known]
        simp [splitOn]
        omega
      · simp [splitOn, Decision.Identified]

theorem Grows.measured (hgrows : Grows tolerance place t t') (ht : t.Measured) : t'.Measured := by
  cases hgrows with
  | keeps retained => exact ht.retains retained
  | splits _ _ retained known _ => exact (ht.retains retained).branch known (by simp [splitOn])

/-- What a node can be split on are edges with given keys about which nothing was decided on its
path. -/
def Untried (keys : Finset VertexSet) (tolerance : Extended) (t : Tree Extended Move) :
    Place Extended → Prop
  | .closing h (.solved _ values) => ∀ e x, (e, x) ∈ values.entries → Fractional tolerance x →
      e.key ∈ keys ∧ e.key ∉ (t.node h).decisions.map Decision.key
  | _ => True

theorem Grows.orderly (hgrows : Grows tolerance place t t')
    (huntried : Untried keys tolerance t place) (ht : ∀ k, Orderly keys (t.node k).decisions)
    (k : Handle) :
    Orderly keys (t'.node k).decisions := by
  cases hgrows with
  | keeps retained =>
      rw [retained.decisions_eq]
      exact ht k
  | @splits h z x values e t t₁ entry fractional retained known _ =>
      obtain ⟨hkey, hnew⟩ := huntried e x entry fractional
      have hb := Tree.branched_createChildren known (splitOn (t₁.node h).id e)
      rcases hb.cases k with ⟨-, -, hsame, -⟩ | ⟨i, d, -, hi, hchild⟩ | ⟨-, hblank⟩
      · rw [hsame, retained.decisions_eq]
        exact ht k
      · have hd : d.key = e.key := by
          have hmem := List.mem_of_getElem? hi
          simp only [splitOn, List.mem_cons, List.not_mem_nil, or_false] at hmem
          rcases hmem with rfl | rfl <;> rfl
        rw [hchild, Tree.decisions_childOf, retained.decisions_eq]
        exact (ht h).concat (hd ▸ hkey) (hd ▸ hnew)
      · rw [hblank]
        exact .nil keys

theorem orderly_initial (keys : Finset VertexSet) (k : Handle) :
    Orderly keys ((Tree.initial : Tree Extended Move).node k).decisions := by
  rw [Tree.node_initial]
  exact .nil keys

end Search

end TourSearch
