import TourSearch.Proofs.Lineage
import TourSearch.Proofs.Search.Restoration
import Mathlib

/-!
Every relaxation is solved in the context of its own node. Whatever nodes were explored before, when
a relaxation is solved the trail holds the decisions on the path from the root to the node
(`Settles`), so that the restrictions are those at the beginning together with those of that path
and no others.
-/

namespace TourSearch

namespace Trail

def fixedKeys (path : List (Decision Move)) : List VertexSet :=
  path.filterMap fun d =>
    match d.move with
    | .fix e => some e.key
    | .remove _ => none

def forbiddenKeys (path : List (Decision Move)) : List VertexSet :=
  path.filterMap fun d =>
    match d.move with
    | .fix _ => none
    | .remove e => some e.key

/-- Decisions that are applied restrict the edges that they name, and no others. -/
theorem mem_applyAll {path : List (Decision Move)} {r r' : Restrictions}
    (h : applyAll moveAct path r = .ok r') (k : VertexSet) :
    (k ∈ r'.fixed ↔ k ∈ r.fixed ∨ k ∈ fixedKeys path) ∧
      (k ∈ r'.forbidden ↔ k ∈ r.forbidden ∨ k ∈ forbiddenKeys path) := by
  induction path generalizing r with
  | nil =>
      obtain rfl := Except.ok.inj h
      simp [fixedKeys, forbiddenKeys]
  | cons d path ih =>
      obtain ⟨r₁, hd, hrest⟩ := except_bind_eq_ok.mp h
      obtain ⟨-, -, rfl⟩ := Move.act_apply_eq_ok.mp hd
      obtain ⟨hfixed, hforbidden⟩ := ih hrest
      rw [hfixed, hforbidden]
      cases hmove : d.move with
      | fix e =>
          simp [fixedKeys, forbiddenKeys, hmove, Move.restrict, SortedSet.mem_insert, or_assoc,
            or_left_comm]
      | remove e =>
          simp [fixedKeys, forbiddenKeys, hmove, Move.restrict, SortedSet.mem_insert, or_assoc,
            or_left_comm]

end Trail

namespace Search

variable {α σ : Type} [Scalar α] {p : Problem α Move σ} {config : SearchConfig α}
  {view : σ → Restrictions} {r₀ : Restrictions} {start run run' : Run α Move σ} {h : Handle}

def allDecisions (t : Tree α Move) : List (Decision Move) := t.records.toList.flatMap Node.decisions

theorem mem_allDecisions {t : Tree α Move} {d : Decision Move} (hd : d ∈ (t.node h).decisions) :
    d ∈ allDecisions t := by
  rw [Tree.node] at hd
  cases hrecord : t.records[h]? with
  | none =>
      rw [hrecord] at hd
      cases hd
  | some n =>
      rw [hrecord] at hd
      refine List.mem_flatMap.mpr ⟨n, ?_, hd⟩
      exact Array.mem_toList_iff.mpr (Array.mem_of_getElem? hrecord)

/-- The tree is well descended, the trail stands at one of its nodes, and the decisions there make
the present restrictions of the first ones. -/
structure Settles (view : σ → Restrictions) (r₀ : Restrictions) (run : Run α Move σ) : Prop where
  descended : run.tree.Descended
  known : run.queue.Known run.tree.records.size
  settled : run.trail.Settled
  onTree : ∃ k < run.tree.records.size, run.trail.history = (run.tree.node k).decisions
  applied : Trail.applyAll Trail.moveAct run.trail.history r₀ = .ok (view run.world)

/-- The node at a place has a record, and the trail has come to it before a relaxation is solved. -/
def Located : Place α → Run α Move σ → Prop
  | .moving h, run => h < run.tree.records.size
  | .solving h _, run =>
      h < run.tree.records.size ∧ run.trail.history = (run.tree.node h).decisions
  | .closing h _, run => h < run.tree.records.size
  | .between, _ | .closed _, _ | .ended, _ => True

/-- What happens to the tree and the queue while the trail stays where it is. -/
theorem Settles.continues (hs : Settles view r₀ run) (hcontinues : run.tree.Continues run'.tree)
    (hknown : run'.queue.Known run'.tree.records.size)
    (hsame : (run'.trail, view run'.world) = (run.trail, view run.world)) :
    Settles view r₀ run' := by
  obtain ⟨htrail, hview⟩ := Prod.mk.inj hsame
  refine ⟨hcontinues.descended hs.descended, hknown, htrail ▸ hs.settled, ?_, ?_⟩
  · obtain ⟨k, hk, hhistory⟩ := hs.onTree
    exact ⟨k, hk.trans_le hcontinues.size_le, by rw [htrail, hhistory, hcontinues.decisions_eq hk]⟩
  · rw [htrail, hview]
    exact hs.applied

/-- The trail comes from a path of the same tree, so decisions of one stamp are the same. -/
theorem Settles.identified (hs : Settles view r₀ run)
    (hid : Decision.Identified (allDecisions run.tree)) (h : Handle) :
    Decision.Identified (run.trail.history ++ (run.tree.node h).decisions) := by
  obtain ⟨k, -, hhistory⟩ := hs.onTree
  refine hid.mono fun d hd => ?_
  rw [hhistory] at hd
  rcases List.mem_append.mp hd with hd | hd
  · exact mem_allDecisions hd
  · exact mem_allDecisions hd

theorem continues_accepted (t : Tree α Move) (h : Handle) (values : EdgeValues α) :
    t.Continues (accepted t h values) := by
  have hrecord := t.continues_modify h
    (f := fun n => { n with isInteger := true, solution := values }) fun _ => rfl
  exact (hrecord.trans (Tree.continues_markProcessed _ h .integer)).trans
    (Tree.continues_setIncumbent _ h)

theorem Closes.continues {answer : Answer α} (hcloses : Closes p config h run answer run')
    (hlt : h < run.tree.records.size) (hknown : run.queue.Known run.tree.records.size) :
    run.tree.Continues run'.tree ∧ run'.queue.Known run'.tree.records.size := by
  have hsolved (z : α) : run.tree.Continues (solvedTree run.tree h z) :=
    run.tree.continues_modify h fun _ => rfl
  cases hcloses with
  | infeasible =>
      have hcontinues := run.tree.continues_markProcessed h .prunedInfeasible
      exact ⟨hcontinues, hknown.mono hcontinues.size_le⟩
  | @hopeless z _ _ =>
      have hcontinues := (hsolved z).trans (Tree.continues_markProcessed _ h .prunedBound)
      exact ⟨hcontinues, hknown.mono hcontinues.size_le⟩
  | @incumbent z values _ _ =>
      have hcontinues := ((hsolved z).trans (continues_accepted _ h values)).trans
        (Tree.continues_pruneByBound _)
      exact ⟨hcontinues, (hknown.mono hcontinues.size_le).prune⟩
  | @givenUp z _ _ _ _ _ _ _ =>
      have hcontinues := (hsolved z).trans (Tree.continues_markProcessed _ h .fathomed)
      exact ⟨hcontinues, hknown.mono hcontinues.size_le⟩
  | @branched z _ _ c _ _ _ _ _ =>
      have hlt' := hlt.trans_le (hsolved z).size_le
      have hcontinues := (hsolved z).trans (Tree.continues_createChildren _ hlt' c.decisions)
      exact ⟨hcontinues, (hknown.mono hcontinues.size_le).addAll fun k hk =>
        Tree.mem_createChildren hlt' hk⟩

def KeepsDescent (p : Problem α Move σ) : Prop :=
  ∀ {h t t' w w'}, (p.afterNode h).Gives (t, w) () (t', w') → Tree.Continues t t'

theorem Settles.advance (hs : Settles view r₀ run) (hp : Bystanders p view)
    (hafter : KeepsDescent p) (hid : Decision.Identified (allDecisions run.tree))
    {place place' : Place α} (hlocated : Located place run)
    (next : (Search.advance p config place).Gives run place' run') :
    Settles view r₀ run' ∧ Located place' run' := by
  have hround : ∀ {answer : Option (Answer α)} {rounds : Nat} {id : Int},
      (cutRound p config id rounds).Gives run answer run' →
        (run'.trail, view run'.world) = (run.trail, view run.world) →
          Settles view r₀ run' ∧ run'.tree = run.tree := by
    intro answer rounds id round hsame
    have htree : run'.tree = run.tree := tree_cutRound.of_gives round
    have hqueue : run'.queue = run.queue := queue_cutRound.of_gives round
    exact ⟨hs.continues (htree ▸ .refl _) (by rw [htree, hqueue]; exact hs.known) hsame, htree⟩
  cases moves_of_gives next with
  | done => exact ⟨hs, trivial⟩
  | drained popped =>
      have hsame := (hp.leaves_advance .between (by simp)).of_gives next
      exact ⟨hs.continues (.refl _) (hs.known.pop popped).1 hsame, trivial⟩
  | @taken _ _ h _ popped kept =>
      have hsame := (hp.leaves_advance .between (by simp)).of_gives next
      obtain ⟨hknown, hlt⟩ := hs.known.pop popped
      have hcontinues : run.tree.Continues run'.tree := by
        rw [kept.tree]
        exact run.tree.continues_modify h fun _ => rfl
      refine ⟨hs.continues hcontinues ?_ hsame, ?_⟩
      · rw [kept.queue]
        exact hknown.mono hcontinues.size_le
      · exact (hlt h rfl).trans_le hcontinues.size_le
  | @moved _ _ h move =>
      obtain ⟨trail, world, hmove, rfl⟩ := gives_goTo.mp move
      have hidPaths := hs.identified hid h
      obtain ⟨rfl, shared, hshared, hperforms⟩ := hs.settled.transition_ok hidPaths hmove
      have happlied := hp.acts.plan (hshared.take_eq hidPaths) hshared.le_left
        (Trail.undoes_moveAct _ _) hs.applied hperforms
      exact ⟨⟨hs.descended, hs.known, ⟨hs.settled.consistent, Or.inl rfl⟩, ⟨h, hlocated, rfl⟩,
        happlied⟩, hlocated, rfl⟩
  | @again _ _ h rounds round =>
      have hsame := (hp.leaves_advance (.solving h rounds) (by simp)).of_gives next
      obtain ⟨hs', htree⟩ := hround round hsame
      refine ⟨hs', ?_⟩
      rw [Located, htree, (Prod.mk.inj hsame).1]
      exact hlocated
  | @answered _ _ h rounds _ round =>
      have hsame := (hp.leaves_advance (.solving h rounds) (by simp)).of_gives next
      obtain ⟨hs', htree⟩ := hround round hsame
      refine ⟨hs', ?_⟩
      rw [Located, htree]
      exact hlocated.1
  | @closed _ _ h answer close =>
      have hsame := (hp.leaves_advance (.closing h answer) (by simp)).of_gives next
      obtain ⟨hcontinues, hknown⟩ := (closes_of_gives close).continues hlocated hs.known
      exact ⟨hs.continues hcontinues hknown hsame, trivial⟩
  | @returned _ h t _ after =>
      have hsame := (hp.leaves_advance (.closed h) (by simp)).of_gives next
      have hcontinues : run.tree.Continues t := hafter after
      exact ⟨hs.continues hcontinues (hs.known.mono hcontinues.size_le) hsame, trivial⟩
  | rested => exact ⟨hs, trivial⟩

theorem settles_outset (s : Solver α Move σ) : Settles view (view s.world) (outset s) := by
  have htrail : (outset s).trail = Trail.setOut ⟨Tree.root, []⟩ s.listeners := trail_outset s
  have hroot : Tree.root < (outset s).tree.records.size := Nat.one_pos
  refine ⟨Tree.descended_initial, ?_, ?_, ⟨Tree.root, hroot, ?_⟩, ?_⟩
  · refine OpenQueue.Known.add (fun e he => ?_) hroot
    cases he
  · rw [htrail]
    exact ⟨rfl, Or.inr rfl⟩
  · rw [htrail]
    rfl
  · rw [htrail]
    rfl

theorem Reaches.settles (hp : Bystanders p view) (hafter : KeepsDescent p)
    (hid : ∀ {place run}, Reaches p config start place run →
      Decision.Identified (allDecisions run.tree))
    (hstart : Settles view r₀ start) {place : Place α}
    (hreached : Reaches p config start place run) :
    Settles view r₀ run ∧ Located place run := by
  induction hreached with
  | start => exact ⟨hstart, trivial⟩
  | step before next ih => exact ih.1.advance hp hafter (hid before) ih.2 next

/-- Whenever the relaxation of a node is solved, the fixed edges are those fixed at the beginning
and those that the decisions on the path from the root to the node fix, and likewise the forbidden
ones. This holds whatever nodes were explored before, for any way to choose and to split nodes, and
from any restrictions at the beginning. That decisions are known by their stamps is what it means
for two of them to be the same decision. -/
theorem solved_under_own_decisions (s : Solver α Move σ) (hp : Bystanders s.problem view)
    (hafter : KeepsDescent s.problem) (timeLimit : Option α) (nodeLimit : Option Int)
    (hid : ∀ {place run},
      Reaches s.problem (Solver.limited s.config timeLimit nodeLimit) (outset s) place run →
        Decision.Identified (allDecisions run.tree))
    {rounds : Nat}
    (hreached : Reaches s.problem (Solver.limited s.config timeLimit nodeLimit) (outset s)
      (.solving h rounds) run) :
    ∃ path, (∀ path', run.tree.PathTo h path' ↔ path' = path) ∧ ∀ k,
      (k ∈ (view run.world).fixed ↔ k ∈ (view s.world).fixed ∨ k ∈ Trail.fixedKeys path) ∧
        (k ∈ (view run.world).forbidden ↔
          k ∈ (view s.world).forbidden ∨ k ∈ Trail.forbiddenKeys path) := by
  obtain ⟨hsettles, hlt, hhistory⟩ := hreached.settles hp hafter hid (settles_outset s)
  refine ⟨_, fun path' => hsettles.descended.pathTo_iff hlt, fun k => ?_⟩
  have happlied := hsettles.applied
  rw [hhistory] at happlied
  exact Trail.mem_applyAll happlied k

theorem keepsDescent_script (rules : List (ScriptRule α)) (acceptance : Acceptance)
    (strategy : Script.Strategy α) :
    KeepsDescent (Script.problem ⟨rules, acceptance, []⟩ strategy) := by
  intro h t t' w w' hgives
  have htree : t = t' := congrArg (fun result => result.2.1) hgives
  exact htree ▸ Tree.Continues.refl t

/-- A relaxation that is fractional at the root and infeasible at both children. -/
def switchRules : List (ScriptRule Numeric.Extended) :=
  [⟨[[.int 0, .int 1]], [], 0, 0, .finite 1, .infeasible⟩,
    ⟨[], [[.int 0, .int 1]], 0, 0, .finite 1, .infeasible⟩,
    ⟨[], [], 0, 0, .finite 1, .solved (.finite 2)
      ⟨[([.int 0, .int 1], .finite (1 / 2)), ([.int 1, .int 2], .finite 1),
        ([.int 0, .int 2], .finite 1)]⟩⟩]

def switchSolver : Solver Numeric.Extended Move (Stage Numeric.Extended) :=
  { strandedSolver with
    problem := Script.problem ⟨switchRules, .dedupe, []⟩ (.edges EdgeBranching.standard) }

/-- At the second child the edge of the decision is forbidden beside the one that was forbidden from
the beginning, and what the first child fixed is free again. -/
theorem solved_under_own_decisions_switch :
    ∃ run, Reaches switchSolver.problem switchSolver.config (outset switchSolver)
        (.solving 2 0) run ∧
      run.tree.PathTo 2 [⟨1, .remove [.int 0, .int 1]⟩] ∧
      Edge.key [.int 0, .int 1] ∈ run.world.restrictions.forbidden ∧
      Edge.key [.int 1, .int 2] ∈ run.world.restrictions.forbidden ∧
      Edge.key [.int 0, .int 1] ∉ run.world.restrictions.fixed := by
  have hend : orbit switchSolver.problem switchSolver.config (outset switchSolver) 17 = none := by
    decide +kernel
  have hid : ∀ {place run}, Reaches switchSolver.problem
      (Solver.limited switchSolver.config none none) (outset switchSolver) place run →
        Decision.Identified (allDecisions run.tree) :=
    Reaches.of_orbit (P := fun _ run => Decision.Identified (allDecisions run.tree)) hend
      (by unfold Decision.Identified; decide +kernel)
  -- The twelfth step has led to the second child.
  obtain ⟨run, hreached, hlookup, hfresh⟩ : ∃ run, Reaches switchSolver.problem
      (Solver.limited switchSolver.config none none) (outset switchSolver) (.solving 2 0) run ∧
      run.tree.lookup? (run.tree.node 2).parent = some Tree.root ∧
      (run.tree.node 2).fresh = [⟨1, .remove [.int 0, .int 1]⟩] := by
    have hthere : (orbit switchSolver.problem switchSolver.config (outset switchSolver) 12).any
        (fun x => match x with
          | (.solving 2 0, run) =>
              decide (run.tree.lookup? (run.tree.node 2).parent = some Tree.root ∧
                (run.tree.node 2).fresh = [⟨1, .remove [.int 0, .int 1]⟩])
          | _ => false) = true := by decide +kernel
    obtain ⟨x, hx, hfacts⟩ := (Option.any_eq_true _ _).mp hthere
    split at hfacts
    · exact ⟨_, reaches_of_mem_orbit hx, of_decide_eq_true hfacts⟩
    · cases hfacts
  obtain ⟨path, hpath, hkeys⟩ := solved_under_own_decisions switchSolver (bystanders_script _ _)
    (keepsDescent_script _ _ _) none none hid hreached
  have hown : run.tree.PathTo 2 [⟨1, .remove [.int 0, .int 1]⟩] :=
    hfresh ▸ Tree.PathTo.child hlookup .root
  obtain rfl := (hpath _).mp hown
  refine ⟨run, hreached, hown, (hkeys _).2.mpr ?_, (hkeys _).2.mpr ?_, fun hfixed => ?_⟩
  · exact Or.inr (by decide +kernel)
  · exact Or.inl (by decide +kernel)
  · exact absurd ((hkeys _).1.mp hfixed) (by decide +kernel)

end Search

end TourSearch
