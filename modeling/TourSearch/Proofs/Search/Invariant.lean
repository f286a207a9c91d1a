import TourSearch.Proofs.Branching
import TourSearch.Proofs.OpenQueue
import TourSearch.Proofs.Search.Partners
import TourSearch.Proofs.Tree
import Mathlib

/-!
The invariant of a search. The tree has grown by branching alone (`Tree.Grown`), so that decisions
are known by their stamps; the queue fits the tree, and the trail stands at one of its nodes. The
incumbent has the cost of a tour. Every tour lies in a pending node of the queue, or does not cost
less than the upper bound by more than a tolerance (`Search.Covered`).
-/

namespace TourSearch

open Numeric

/-! ### Trees that have grown by branching -/

namespace Tree

variable {t t' : Tree Extended Move}

structure Grown (t : Tree Extended Move) : Prop where
  size_eq : t.records.size = t.nextId
  id_eq : ∀ h : Nat, h < t.records.size → (t.node h).id = h
  bounded : ∀ h, (t.node h).lowerBound ≠ .undefined
  stamped : ∀ h, ∀ d ∈ (t.node h).decisions, (t.node (d.stamp / 2)).status = .branched
  identified : ∀ h k, ∀ d ∈ (t.node h).decisions, ∀ e ∈ (t.node k).decisions,
    d.stamp = e.stamp → d = e

theorem grown_initial : (initial : Tree Extended Move).Grown := by
  refine ⟨rfl, fun h hh => ?_, fun h => ?_, fun h d hd => ?_, fun h k d hd => ?_⟩
  · have hzero : h = 0 := by simpa [initial, register] using hh
    rw [node_initial, hzero]
    rfl
  · rw [node_initial]
    simp [Node.blank]
  · rw [node_initial] at hd
    simp [Node.blank, Node.decisions] at hd
  · rw [node_initial] at hd
    simp [Node.blank, Node.decisions] at hd

theorem Grown.congr (ht : t.Grown) (hsize : t'.records.size = t.records.size)
    (hnext : t'.nextId = t.nextId)
    (hnodes : ∀ h, (t'.node h).id = (t.node h).id ∧
      (t'.node h).decisions = (t.node h).decisions ∧ (t'.node h).lowerBound ≠ .undefined ∧
      ((t.node h).status = .branched → (t'.node h).status = .branched)) : t'.Grown := by
  refine ⟨by rw [hsize, hnext, ht.size_eq], fun h hh => ?_, fun h => (hnodes h).2.2.1,
    fun h d hd => ?_, fun h k d hd e he => ?_⟩
  · rw [(hnodes h).1]
    exact ht.id_eq h (hsize ▸ hh)
  · rw [(hnodes h).2.1] at hd
    exact (hnodes _).2.2.2 (ht.stamped h d hd)
  · rw [(hnodes h).2.1] at hd
    rw [(hnodes k).2.1] at he
    exact ht.identified h k d hd e he

theorem Pruned.grown (hp : Pruned t t') (ht : t.Grown) : t'.Grown := by
  refine ht.congr hp.size_eq hp.nextId_eq fun h => ?_
  rcases hp.nodes h with heq | ⟨hpending, -, heq⟩
  · rw [heq]
    exact ⟨rfl, rfl, ht.bounded h, id⟩
  · rw [heq]
    refine ⟨rfl, rfl, ht.bounded h, fun hbranched => ?_⟩
    rw [Node.isPending_iff, hbranched] at hpending
    cases hpending

theorem Pruned.fits {q : OpenQueue Extended} (hp : Pruned t t') (hq : q.Fits t) :
    q.Fits t' := by
  refine hq.of_tree hp.size_eq.ge fun k _ hk => ?_
  rcases hp.nodes k with heq | ⟨-, -, heq⟩
  · rw [heq] at hk ⊢
    exact ⟨hk, rfl⟩
  · rw [heq, Node.isPending_iff] at hk
    cases hk

theorem Grown.modify (ht : t.Grown) {h : Handle} (hstatus : (t.node h).status ≠ .branched)
    {f : Node Extended Move → Node Extended Move} (hid : (f (t.node h)).id = (t.node h).id)
    (hdecisions : (f (t.node h)).decisions = (t.node h).decisions)
    (hbound : (f (t.node h)).lowerBound ≠ .undefined) : (t.modify h f).Grown := by
  refine ht.congr (t.size_modify h f) rfl fun k => ?_
  rw [node_modify]
  split
  · rename_i hk
    rw [hk.1]
    exact ⟨hid, hdecisions, hbound, fun hbranched => absurd hbranched hstatus⟩
  · exact ⟨rfl, rfl, ht.bounded k, id⟩

theorem decisions_childOf (n : Node Extended Move) (d : Decision Move) (id : Int) :
    ({ childOf n d with id } : Node Extended Move).decisions = n.decisions ++ [d] := rfl

theorem Branched.grown {parent : Nat} {ds : List (Decision Move)} {hs : List Handle}
    (hb : Branched t parent ds hs t') (ht : t.Grown) (hparent : parent < t.records.size)
    (hstatus : (t.node parent).status ≠ .branched) (hstamps : ∀ d ∈ ds, d.stamp / 2 = parent)
    (hid : Decision.Identified ds) : t'.Grown := by
  -- Every decision of the new tree is an old one or one of those branched on.
  have hdecisions : ∀ k, ∀ d ∈ (t'.node k).decisions,
      (∃ h, d ∈ (t.node h).decisions) ∨ d ∈ ds := by
    intro k d hd
    rcases hb.cases k with ⟨-, -, hsame, -⟩ | ⟨i, d', -, hi, hnew⟩ | ⟨-, hblank⟩
    · exact Or.inl ⟨k, hsame ▸ hd⟩
    · rw [hnew, decisions_childOf] at hd
      rcases List.mem_append.mp hd with hd | hd
      · exact Or.inl ⟨parent, hd⟩
      · rw [List.mem_singleton] at hd
        exact Or.inr (hd ▸ List.mem_of_getElem? hi)
    · rw [hblank] at hd
      simp [Node.blank, Node.decisions] at hd
  have hbranched : ∀ k, (t.node k).status = .branched → (t'.node k).status = .branched := by
    intro k hk
    have hlt : k < t.records.size := lt_of_status (by simp [hk])
    rw [hb.old k hlt (by rintro rfl; exact hstatus hk)]
    exact hk
  have hself : (t'.node parent).status = .branched := by
    obtain ⟨children, hself⟩ := hb.self
    rw [hself]
  refine ⟨by rw [hb.size_eq, hb.nextId_eq, ht.size_eq], fun k hk => ?_, fun k => ?_,
    fun k d hd => ?_, fun h k d hd e he hde => ?_⟩
  · rcases hb.cases k with ⟨hlt, hsame, -⟩ | ⟨i, d, hki, -, hnew⟩ | ⟨hge, -⟩
    · rw [hsame, ht.id_eq k hlt]
    · rw [hnew, hki, ht.size_eq]
      push_cast
      rfl
    · omega
  · rcases hb.cases k with ⟨-, -, -, hsame⟩ | ⟨i, d, -, -, hnew⟩ | ⟨-, hblank⟩
    · rw [hsame]
      exact ht.bounded k
    · rw [hnew]
      exact ht.bounded parent
    · rw [hblank]
      simp [Node.blank]
  · rcases hdecisions k d hd with ⟨h, hd⟩ | hd
    · exact hbranched _ (ht.stamped h d hd)
    · rw [hstamps d hd]
      exact hself
  · rcases hdecisions h d hd with ⟨h', hd'⟩ | hd' <;> rcases hdecisions k e he with ⟨k', he'⟩ | he'
    · exact ht.identified h' k' d hd' e he' hde
    · have := ht.stamped h' d hd'
      rw [hde, hstamps e he'] at this
      exact absurd this hstatus
    · have := ht.stamped k' e he'
      rw [← hde, hstamps d hd'] at this
      exact absurd this hstatus
    · exact hid d hd' e he' hde

end Tree

/-! ### What a search knows about the tours -/

namespace Search

variable {σ : Type} {S : Setup σ} {F : Set Tour} {t t' : Tree Extended Move}
  {values : EdgeValues Extended} {q q' : OpenQueue Extended}

/-- The incumbent has the cost of a tour, which is the upper bound, and its values are those of an
accepted answer. -/
def Incumbent (S : Setup σ) (F : Set Tour) (t : Tree Extended Move) (values : EdgeValues Extended) :
    Prop :=
  (t.incumbent = none ∧ t.stats.upper = .infinity) ∨
    ∃ k T, T ∈ F ∧ t.incumbent = some k ∧ (t.node k).status = .integer ∧
      (t.node k).lpValue = .finite T.cost ∧ t.stats.upper = .finite T.cost ∧
      Accepted S (.finite T.cost) values

theorem Incumbent.upper_ne_undefined (h : Incumbent S F t values) :
    t.stats.upper ≠ .undefined := by
  rcases h with ⟨-, hupper⟩ | ⟨k, T, -, -, -, -, hupper, -⟩ <;> simp [hupper]

theorem Incumbent.congr (h : Incumbent S F t values) (hincumbent : t'.incumbent = t.incumbent)
    (hupper : t'.stats.upper = t.stats.upper)
    (hnodes : ∀ k, (t.node k).status = .integer →
      (t'.node k).status = .integer ∧ (t'.node k).lpValue = (t.node k).lpValue) :
    Incumbent S F t' values := by
  rcases h with ⟨hnone, hinf⟩ | ⟨k, T, hT, hsome, hinteger, hvalue, hcost, haccepted⟩
  · exact Or.inl ⟨hincumbent.trans hnone, hupper.trans hinf⟩
  · obtain ⟨hinteger', hvalue'⟩ := hnodes k hinteger
    exact Or.inr ⟨k, T, hT, hincumbent.trans hsome, hinteger', hvalue'.trans hvalue,
      hupper.trans hcost, haccepted⟩

theorem Incumbent.modify (h : Incumbent S F t values) {k : Handle}
    (hstatus : (t.node k).status ≠ .integer) (f : Node Extended Move → Node Extended Move) :
    Incumbent S F (t.modify k f) values := by
  refine h.congr rfl rfl fun j hj => ?_
  rw [Tree.node_modify_of_ne _ (by rintro rfl; exact hstatus hj)]
  exact ⟨hj, rfl⟩

def Holds (t : Tree Extended Move) (T : Tour) (k : Handle) : Prop :=
  T.Obeys (t.node k).decisions ∧ (t.node k).lowerBound ≤ .finite T.cost

/-- A tour lies in a pending node of the queue, or is not cheaper than the upper bound by more than
the tolerance. -/
def Covered (tau : Rat) (t : Tree Extended Move) (q : OpenQueue Extended) (T : Tour) : Prop :=
  (∃ k, q.Waits k ∧ (t.node k).isPending = true ∧ Holds t T k) ∨
    t.stats.upper - .finite tau ≤ .finite T.cost

/-- Tours stay covered when their nodes stay in the queue or reach the upper bound, and the upper
bound does not rise. -/
theorem Covered.mono {tau : Rat} {T : Tour} (h : Covered tau t q T)
    (hupper : t'.stats.upper ≤ t.stats.upper)
    (hnodes : ∀ k, q.Waits k → (t.node k).isPending = true → Holds t T k →
      (q'.Waits k ∧ (t'.node k).isPending = true ∧ Holds t' T k) ∨
        t'.stats.upper - .finite tau ≤ .finite T.cost) : Covered tau t' q' T := by
  rcases h with ⟨k, hwaits, hpending, hholds⟩ | hcost
  · rcases hnodes k hwaits hpending hholds with hstill | hreached
    · exact Or.inl ⟨k, hstill⟩
    · exact Or.inr hreached
  · exact Or.inr (Extended.le_trans (Extended.sub_finite_le_sub_finite hupper tau) hcost)

structure Standing (S : Setup σ) (view : σ → Restrictions) (F : Set Tour)
    (run : Run Extended Move σ) : Prop where
  grown : run.tree.Grown
  fits : run.queue.Fits run.tree
  settled : run.trail.Settled
  listeners : run.trail.listeners = S.listeners
  onTree : ∃ k < run.tree.records.size, run.trail.history = (run.tree.node k).decisions
  applied : Trail.applyAll Trail.moveAct run.trail.history Restrictions.empty =
    .ok (view run.world)
  meets : Meets S run.world
  like : run.separator.Like S.separator
  incumbent : Incumbent S F run.tree run.incumbentValues

structure Between (S : Setup σ) (view : σ → Restrictions) (F : Set Tour) (tau : Rat)
    (run : Run Extended Move σ) : Prop extends Standing S view F run where
  covered : ∀ T ∈ F, Covered tau run.tree run.queue T

structure At (S : Setup σ) (view : σ → Restrictions) (F : Set Tour) (tau : Rat) (h : Handle)
    (run : Run Extended Move σ) : Prop extends Standing S view F run where
  known : h < run.tree.records.size
  processing : (run.tree.node h).status = .processing
  covered : ∀ T ∈ F, Covered tau run.tree run.queue T ∨ Holds run.tree T h

/-- A change of the tree at the node that is being explored, and nowhere else. -/
theorem Standing.modify {view : σ → Restrictions} {run : Run Extended Move σ}
    (hs : Standing S view F run) {h : Handle}
    (hpending : (run.tree.node h).status = .pending ∨ (run.tree.node h).status = .processing)
    {f : Node Extended Move → Node Extended Move}
    (hid : (f (run.tree.node h)).id = (run.tree.node h).id)
    (hdecisions : (f (run.tree.node h)).decisions = (run.tree.node h).decisions)
    (hbound : (f (run.tree.node h)).lowerBound ≠ .undefined)
    (hclosed : (f (run.tree.node h)).status ≠ .pending) :
    Standing S view F { run with tree := run.tree.modify h f } := by
  have hnotBranched : (run.tree.node h).status ≠ .branched := by
    rcases hpending with hst | hst <;> simp [hst]
  have hnotInteger : (run.tree.node h).status ≠ .integer := by
    rcases hpending with hst | hst <;> simp [hst]
  refine ⟨hs.grown.modify hnotBranched hid hdecisions hbound,
    hs.fits.of_tree (by simp) fun k hk hk' => ?_, hs.settled, hs.listeners, ?_, hs.applied,
    hs.meets, hs.like, hs.incumbent.modify hnotInteger f⟩
  · rw [Tree.node_modify] at hk' ⊢
    split at hk'
    · rw [Node.isPending_iff] at hk'
      exact absurd hk' hclosed
    · rename_i hne
      rw [if_neg hne]
      exact ⟨hk', rfl⟩
  · obtain ⟨k, hk, hhistory⟩ := hs.onTree
    refine ⟨k, by simpa using hk, hhistory.trans ?_⟩
    show (run.tree.node k).decisions = ((run.tree.modify h f).node k).decisions
    rw [Tree.node_modify]
    split
    · rename_i hkh
      rw [hkh.1, hdecisions]
    · rfl

end Search

end TourSearch
