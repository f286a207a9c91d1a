import TourSearch.Numeric.Extended
import TourSearch.Proofs.Search.Course
import TourSearch.Proofs.Trail
import Mathlib

/-!
A search leaves the restrictions as it found them, however it ends. Its partners may fail at any
place; as long as only they do, and no decision fails to be applied and no listener fails
(`Trail.Calm`), the trail always holds exactly the decisions that brought the restrictions from
their first state to the present one (`Anchored`). Every one of them can then be taken back.
-/

namespace TourSearch

def Call.takesBack {μ : Type} : Call μ → Bool
  | .act .revert _ => true
  | .act .apply _ => false
  | .notify .. => false

namespace Trail

variable {μ σ τ : Type} {perform : Call μ → Action σ Unit} {view : σ → τ}
  {act : Act → Decision μ → τ → Except Fault τ} {calls rest : List (Call μ)} {s s' : σ}

/-! ### Calls that only fail in taking back -/

/-- As the calls are made one after the other, none fails unless it takes a decision back. -/
def Calm (perform : Call μ → Action σ Unit) : List (Call μ) → σ → Prop
  | [], _ => True
  | call :: rest, s =>
      match (perform call).runOn s with
      | (.ok _, s') => Calm perform rest s'
      | (.error _, _) => call.takesBack = true

instance Calm.decidable : ∀ (calls : List (Call μ)) (s : σ), Decidable (Calm perform calls s)
  | [], _ => isTrue trivial
  | call :: rest, s =>
      match h : (perform call).runOn s with
      | (.ok _, s') =>
          have := Calm.decidable rest s'
          decidable_of_iff (Calm perform rest s') (by simp only [Calm, h])
      | (.error _, _) => decidable_of_iff (call.takesBack = true) (by simp only [Calm, h])

theorem Calm.left (h : Calm perform (calls ++ rest) s) : Calm perform calls s := by
  induction calls generalizing s with
  | nil => trivial
  | cons call calls ih =>
      rw [List.cons_append, Calm] at h
      rw [Calm]
      split at h
      · exact ih h
      · exact h

theorem Calm.right (h : Calm perform (calls ++ rest) s) (hcalls : Performs perform calls s s') :
    Calm perform rest s' := by
  induction hcalls with
  | nil s => exact h
  | cons first others ih =>
      rw [List.cons_append, Calm, first] at h
      exact ih h

theorem Calm.performs (h : Calm perform calls s)
    (hforward : ∀ call ∈ calls, call.takesBack = false) : ∃ s', Performs perform calls s s' := by
  induction calls generalizing s with
  | nil => exact ⟨s, .nil s⟩
  | cons call calls ih =>
      rw [Calm] at h
      split at h
      · rename_i s₁ hcall
        obtain ⟨s', hperforms⟩ := ih h fun c hc => hforward c (List.mem_cons_of_mem call hc)
        exact ⟨s', .cons hcall hperforms⟩
      · rw [hforward call List.mem_cons_self] at h
        cases h

theorem takesBack_applies (names : List String) (ds : List (Decision μ)) :
    ∀ call ∈ ds.flatMap (callsFor names .apply), call.takesBack = false := by
  intro call hcall
  obtain ⟨d, -, hcall⟩ := List.mem_flatMap.mp hcall
  rcases List.mem_cons.mp hcall with rfl | hcall
  · rfl
  · obtain ⟨name, -, rfl⟩ := List.mem_map.mp hcall
    rfl

def TakesBack (perform : Call μ → Action σ Unit) (view : σ → τ)
    (act : Act → Decision μ → τ → Except Fault τ) : Prop :=
  ∀ d s x, act .revert d (view s) = .ok x → ((perform (.act .revert d)).runOn s).1 = .ok ()

/-- Decisions that have been applied can be taken back from the last one on. -/
theorem Calm.reverts {names : List String} {ds es : List (Decision μ)} {x₀ : τ}
    (h : Calm perform (es.reverse.flatMap (callsFor names .revert)) s)
    (hacts : ActsOn perform view act) (hback : TakesBack perform view act)
    (hundo : Undoes act (ds ++ es) x₀) (hs : applyAll act (ds ++ es) x₀ = .ok (view s)) :
    ∃ s', Performs perform (es.reverse.flatMap (callsFor names .revert)) s s' := by
  induction es using List.reverseRecOn generalizing s with
  | nil => exact ⟨s, .nil s⟩
  | append_singleton es e ih =>
      rw [List.reverse_append, List.reverse_singleton, List.singleton_append,
        List.flatMap_cons] at h ⊢
      have hs' := hs
      rw [← List.append_assoc] at hs hundo
      obtain ⟨x, hx, happly⟩ := applyAll_concat.mp hs
      have hlegal := hundo (ds ++ es) e (List.prefix_refl _) x _ hx happly
      -- The call that takes `e` back succeeds, and the notices of it do not fail.
      obtain ⟨s₁, hfirst⟩ : ∃ s₁, Performs perform (callsFor names .revert e) s s₁ := by
        have hcalls := h.left
        rw [callsFor, Calm] at hcalls
        have hok := hback e s x hlegal
        split at hcalls
        · rename_i s₁ hcall
          obtain ⟨s₂, hnotices⟩ := hcalls.performs fun call hcall => by
            obtain ⟨name, -, rfl⟩ := List.mem_map.mp hcall
            rfl
          exact ⟨s₂, .cons hcall hnotices⟩
        · rename_i hcall
          rw [hcall] at hok
          cases hok
      have hs₁ : applyAll act (ds ++ es) x₀ = .ok (view s₁) := by
        have hview := hacts.callsFor hfirst
        rw [hlegal] at hview
        rw [hx, Except.ok.inj hview]
      obtain ⟨s', hrest⟩ := ih (h.right hfirst)
        (fun cs c hcs => hundo cs c (hcs.trans (List.prefix_append _ _))) hs₁
      exact ⟨s', hfirst.append hrest⟩

/-- A calm move succeeds, and leaves the state that the decisions on the new history make of the
first one. -/
theorem Calm.moveTo {t : Trail μ} {path : List (Decision μ)} {k : Nat} {x₀ : τ}
    (h : Calm perform (plan t.listeners t.history path k) s) (hacts : ActsOn perform view act)
    (hback : TakesBack perform view act) (hundo : Undoes act t.history x₀)
    (hconsistent : t.consistent = true) (hs : applyAll act t.history x₀ = .ok (view s))
    (stop : Stop μ) :
    let history := t.history.take k ++ path.drop (min k t.history.length)
    ∃ s', Trail.moveTo perform stop (plan t.listeners t.history path k) t s =
        (.ok (), { t with history, current := stop }, s') ∧
      applyAll act history x₀ = .ok (view s') := by
  intro history
  rw [← List.take_append_drop k t.history] at hundo hs
  obtain ⟨s₁, hreverts⟩ := h.left.reverts hacts hback hundo hs
  obtain ⟨s', happlies⟩ := (h.right hreverts).performs (takesBack_applies _ _)
  refine ⟨s', ?_, hacts.applies (hacts.reverts hundo hs hreverts) happlies⟩
  have hcarry := carryOut_of_performs (hreverts.append happlies) t
  rw [show _ ++ _ = plan t.listeners t.history path k from rfl, foldl_note_plan] at hcarry
  simp only [Trail.moveTo, hconsistent, if_true, hcarry, history]

end Trail

namespace Search

variable {α σ : Type} [Scalar α] {p : Problem α Move σ} {config : SearchConfig α}
  {view : σ → Restrictions} {start run run' : Run α Move σ} {h : Handle} {fault : Fault}

/-! ### Partners that stand by -/

structure Bystanders (p : Problem α Move σ) (view : σ → Restrictions) : Prop where
  acts : Trail.ActsOn p.perform view Trail.moveAct
  solve : p.solve.Leaves view
  addCuts : ∀ cuts, (p.addCuts cuts).Leaves view
  candidates : ∀ n values, (p.candidates n values).Leaves view
  afterNode : ∀ h, (p.afterNode h).Leaves fun w => view w.2

/-- What a search does apart from moving leaves the trail and the restrictions alone. -/
theorem Bystanders.leaves_advance (hp : Bystanders p view) (place : Place α)
    (hplace : ∀ h, place ≠ .moving h) :
    (advance p config place).Leaves fun run => (run.trail, view run.world) := by
  have onWorld : ∀ {β : Type} {x : Action σ β}, x.Leaves view →
      (Run.onWorld x : Action (Run α Move σ) β).Leaves fun run => (run.trail, view run.world) :=
    fun hx run => congrArg (Prod.mk run.trail) (hx run.world)
  cases place with
  | between =>
      refine Action.leaves_get.bind fun run => ?_
      split
      · exact Action.leaves_pure _
      · refine Action.Leaves.bind (fun _ => rfl) fun next => ?_
        cases next with
        | none => exact Action.leaves_pure _
        | some h =>
            exact (leaves_takeUp (fun _ _ _ _ _ _ => rfl) fun _ _ _ => rfl).bind fun _ =>
              Action.leaves_pure _
  | moving h => exact absurd rfl (hplace h)
  | solving h rounds =>
      refine Action.leaves_get.bind fun run => ?_
      refine (leaves_cutRound (fun _ _ _ _ _ _ => rfl) (onWorld hp.solve)
        (fun cuts => onWorld (hp.addCuts cuts)) _ _).bind fun answer => ?_
      cases answer with
      | none => exact Action.leaves_pure _
      | some answer => exact Action.leaves_pure _
  | closing h answer =>
      exact (leaves_close (fun _ _ _ _ => rfl) (fun n values => onWorld (hp.candidates n values))
        answer).bind fun _ => Action.leaves_pure _
  | closed h =>
      refine Action.Leaves.bind (fun run => ?_) fun _ => Action.leaves_pure _
      exact congrArg (Prod.mk run.trail) (hp.afterNode h (run.tree, run.world))
  | ended => exact Action.leaves_pure _

/-! ### The way back -/

/-- The trail stands on its root, and its decisions make the present restrictions of the first
ones. -/
structure Anchored (view : σ → Restrictions) (r₀ : Restrictions) (run : Run α Move σ) : Prop where
  consistent : run.trail.consistent = true
  root : run.trail.root = ⟨Tree.root, []⟩
  applied : Trail.applyAll Trail.moveAct run.trail.history r₀ = .ok (view run.world)

variable {r₀ : Restrictions}

omit [Scalar α] in
theorem Anchored.congr (hrun : Anchored view r₀ run)
    (hsame : (run'.trail, view run'.world) = (run.trail, view run.world)) :
    Anchored view r₀ run' := by
  obtain ⟨htrail, hview⟩ := Prod.mk.inj hsame
  exact ⟨htrail ▸ hrun.consistent, htrail ▸ hrun.root, by rw [htrail, hview]; exact hrun.applied⟩

def callsTo (run : Run α Move σ) (h : Handle) : List (Call Move) :=
  Trail.plan run.trail.listeners run.trail.history (run.tree.node h).decisions
    (Decision.commonPrefixLength run.trail.current.path (run.tree.node h).decisions)

def callsHome (run : Run α Move σ) : List (Call Move) :=
  Trail.plan run.trail.listeners run.trail.history [] 0

theorem Anchored.goTo (hrun : Anchored view r₀ run) (hp : Bystanders p view)
    (hback : Trail.TakesBack p.perform view Trail.moveAct)
    (hcalm : Trail.Calm p.perform (callsTo run h) run.world) :
    ∃ run', (Run.goTo p h).Gives run () run' ∧ Anchored view r₀ run' := by
  obtain ⟨world, hmove, happlied⟩ := hcalm.moveTo hp.acts hback (Trail.undoes_moveAct _ _)
    hrun.consistent hrun.applied ⟨h, (run.tree.node h).decisions⟩
  exact ⟨_, gives_goTo.mpr ⟨_, world, hmove, rfl⟩, hrun.consistent, hrun.root, happlied⟩

def Undisturbed (p : Problem α Move σ) : Place α → Run α Move σ → Prop
  | .moving h, run => Trail.Calm p.perform (callsTo run h) run.world
  | _, _ => True

instance (p : Problem α Move σ) (place : Place α) (run : Run α Move σ) :
    Decidable (Undisturbed p place run) :=
  match place with
  | .moving h => Trail.Calm.decidable (callsTo run h) run.world
  | .between | .solving .. | .closing .. | .closed _ | .ended => isTrue trivial

theorem Reaches.anchored {place : Place α} (hreached : Reaches p config start place run)
    (hp : Bystanders p view) (hback : Trail.TakesBack p.perform view Trail.moveAct)
    (hcalm : ∀ {place run}, Reaches p config start place run → Undisturbed p place run)
    (hstart : Anchored view r₀ start) : Anchored view r₀ run := by
  induction hreached with
  | start => exact hstart
  | @step place place' run run' before next ih =>
      by_cases hplace : ∃ h, place = .moving h
      · obtain ⟨h, rfl⟩ := hplace
        obtain ⟨moved, hgoTo, hmoved⟩ := ih.goTo hp hback (hcalm before)
        obtain ⟨_, _, hgoTo', hdone⟩ := Action.gives_bind.mp next
        obtain ⟨-, rfl⟩ := hgoTo.unique hgoTo'
        exact (Action.gives_pure.mp hdone).2 ▸ hmoved
      · rw [not_exists] at hplace
        exact ih.congr ((hp.leaves_advance _ hplace).of_gives next)

theorem Stops.anchored {steps : Nat} (hstops : Stops p config start steps fault run)
    (hp : Bystanders p view) (hback : Trail.TakesBack p.perform view Trail.moveAct)
    (hcalm : ∀ {place run}, Reaches p config start place run → Undisturbed p place run)
    (hstart : Anchored view r₀ start) : Anchored view r₀ run := by
  cases hstops with
  | rounds reached => exact reached.anchored hp hback hcalm hstart
  | nodes reached _ => exact reached.anchored hp hback hcalm hstart
  | @failure place before _ _ reached failed =>
      have hbefore := reached.anchored hp hback hcalm hstart
      by_cases hplace : ∃ h, place = .moving h
      · -- A calm move does not fail.
        obtain ⟨h, rfl⟩ := hplace
        obtain ⟨moved, hgoTo, -⟩ := hbefore.goTo hp hback (hcalm reached)
        rcases Action.fails_bind.mp failed with hfails | ⟨_, _, -, hfails⟩
        · exact absurd (hgoTo.symm.trans hfails) (by simp)
        · simp at hfails
      · rw [not_exists] at hplace
        exact hbefore.congr ((hp.leaves_advance _ hplace).of_fails failed)

theorem anchored_search {steps : Nat} (hp : Bystanders p view)
    (hback : Trail.TakesBack p.perform view Trail.moveAct)
    (hcalm : ∀ {place run}, Reaches p config start place run → Undisturbed p place run)
    (hstart : Anchored view r₀ start) :
    Anchored view r₀ ((Run.search p config steps).runOn start).2 := by
  rcases Action.gives_or_fails (Run.search p config steps) start with
    ⟨_, ended, hgives⟩ | ⟨fault, failed, hfails⟩
  · rw [hgives]
    simp only [Run.search, Action.gives_bind, Action.gives_modify] at hgives
    obtain ⟨_, run, hexplore, rfl⟩ := hgives
    exact (Reaches.start.exploreAll hexplore).anchored hp hback hcalm hstart |>.congr rfl
  · rw [hfails]
    rcases Action.fails_bind.mp hfails with hexplore | ⟨_, run, -, hmodify⟩
    · exact (Reaches.start.stops_exploreAll (Nat.le_refl _) hexplore).anchored hp hback hcalm hstart
    · simp at hmodify

omit [Scalar α] in
/-- Going home succeeds, and brings back the first restrictions. -/
theorem Anchored.goHome (hrun : Anchored view r₀ run) (hp : Bystanders p view)
    (hback : Trail.TakesBack p.perform view Trail.moveAct)
    (hcalm : Trail.Calm p.perform (callsHome run) run.world) :
    ∃ world, (Run.goHome p).Gives run () { run with
        trail := { run.trail with history := [], current := ⟨Tree.root, []⟩ }
        world } ∧ view world = r₀ := by
  obtain ⟨world, hmove, happlied⟩ := hcalm.moveTo hp.acts hback (Trail.undoes_moveAct _ _)
    hrun.consistent hrun.applied ⟨Tree.root, []⟩
  rw [List.take_zero, List.drop_nil, List.append_nil] at hmove happlied
  refine ⟨world, ?_, (Except.ok.inj happlied).symm⟩
  simp only [Action.Gives, Action.runOn, Run.goHome, hrun.consistent, if_true, Trail.restore, hmove,
    hrun.root]

theorem trail_outset (s : Solver α Move σ) :
    (outset s).trail = Trail.setOut ⟨Tree.root, []⟩ s.listeners := by
  show s.listeners.foldl Trail.addListener (Trail.start _) = _
  rw [Trail.foldl_addListener]
  rfl

theorem anchored_outset (s : Solver α Move σ) : Anchored view (view s.world) (outset s) := by
  refine ⟨?_, ?_, ?_⟩ <;> rw [trail_outset] <;> rfl

/-- However a search ends, the restrictions afterwards are those at the beginning, nothing is
applied any more and the trail stands at the root of the tree. This holds when the search comes to
an end, when a limit stops it, and when any of its partners or the search itself fails, provided
only that no decision fails to be applied and no listener fails. Going back never fails, so that the
cause of a failure is the one that is reported. -/
theorem solve_restores (s : Solver α Move σ) (hp : Bystanders s.problem view)
    (hback : Trail.TakesBack s.problem.perform view Trail.moveAct) (steps : Nat)
    (timeLimit : Option α) (nodeLimit : Option Int)
    (hcalm : ∀ {place run},
      Reaches s.problem (Solver.limited s.config timeLimit nodeLimit) (outset s) place run →
        Undisturbed s.problem place run)
    (hhome :
      let searched := ((Run.search s.problem (Solver.limited s.config timeLimit nodeLimit)
        steps).runOn (outset s)).2
      Trail.Calm s.problem.perform (callsHome searched) searched.world) :
    let config := Solver.limited s.config timeLimit nodeLimit
    let searched := (Run.search s.problem config steps).runOn (outset s)
    ∃ run, (Run.goHome s.problem).Gives searched.2 () run ∧
      (s.solve steps timeLimit nodeLimit).1 =
        searched.1.map (fun _ => run.solution s.problem config) ∧
      (s.solve steps timeLimit nodeLimit).2.1 = run ∧
      view run.world = view s.world ∧ run.trail.history = [] ∧
      run.trail.current = ⟨Tree.root, []⟩ := by
  intro config searched
  have hanchored : Anchored view (view s.world) searched.2 :=
    anchored_search hp hback hcalm (anchored_outset s)
  obtain ⟨world, hgives, hview⟩ := hanchored.goHome hp hback hhome
  have hcomplete := complete_of_goHome hgives
  exact ⟨_, hgives, congrArg Prod.fst hcomplete, congrArg Prod.snd hcomplete, hview, rfl, rfl⟩

/-! ### Scripted partners -/

theorem bystanders_script (script : Script α) (strategy : Script.Strategy α) :
    Bystanders (Script.problem script strategy) Stage.restrictions where
  acts := Trail.actsOn_stage
  solve := by
    intro s
    show ((script.solve).runOn s).2.restrictions = s.restrictions
    simp only [Action.runOn, Script.solve]
    split <;> rfl
  addCuts := fun _ _ => rfl
  candidates := fun n values s => by
    cases strategy with
    | none => rfl
    | edges b => rfl
  afterNode := fun _ _ => rfl

omit [Scalar α] in
theorem takesBack_stage : Trail.TakesBack (Stage.perform (α := α)) Stage.restrictions
    Trail.moveAct := by
  intro d s r hact
  show (Stage.perform (.act .revert d) s).1 = _
  simp only [Stage.perform, Stage.act,
    show Move.act .revert d.move s.restrictions = .ok r from hact, bind, Except.bind, pure,
    Except.pure]

/-- A relaxation that fails at the first child of the root. -/
def strandedRules : List (ScriptRule Numeric.Extended) :=
  [⟨[[.int 0, .int 1]], [], 0, 0, .finite 1, .fails "lost"⟩,
    ⟨[], [], 0, 0, .finite 1, .solved (.finite 2)
      ⟨[([.int 0, .int 1], .finite (1 / 2)), ([.int 1, .int 2], .finite 1),
        ([.int 0, .int 2], .finite 1)]⟩⟩]

def strandedSolver : Solver Numeric.Extended Move (Stage Numeric.Extended) where
  problem := Script.problem ⟨strandedRules, .dedupe, []⟩ (.edges EdgeBranching.standard)
  config := { SearchConfig.standard with maxCutRounds := 0 }
  queue := OpenQueue.empty .bestFirst
  separator := Separator.ofGraph (Graph.build .simple []
    [(.int 0, .int 1, none), (.int 1, .int 2, none), (.int 0, .int 2, none)]) .dinitz
  listeners := ["ear"]
  world := { (Stage.initial Watch.empty : Stage Numeric.Extended) with
    restrictions := ⟨SortedSet.empty, SortedSet.ofList [Edge.key [.int 1, .int 2]]⟩ }
  solution := none

/-- The failure strikes with a decision applied, which is taken back. -/
theorem solve_restores_stranded :
    let searched := (Run.search strandedSolver.problem strandedSolver.config 10).runOn
      (outset strandedSolver)
    searched.1 = .error (.relaxationFailed "lost") ∧ searched.2.trail.history.length = 1 ∧
      (strandedSolver.solve 10 none none).2.1.world.restrictions =
        strandedSolver.world.restrictions ∧
      (strandedSolver.solve 10 none none).2.1.trail.history = [] := by
  have hend : orbit strandedSolver.problem strandedSolver.config (outset strandedSolver) 10 =
    none := by
    decide +kernel
  have hcalm : ∀ {place run}, Reaches strandedSolver.problem
      (Solver.limited strandedSolver.config none none) (outset strandedSolver) place run →
        Undisturbed strandedSolver.problem place run :=
    Reaches.of_orbit hend (by decide +kernel)
  obtain ⟨run, -, -, hrun, hview, hhistory, -⟩ := solve_restores strandedSolver
    (bystanders_script _ _) takesBack_stage 10 none none hcalm (by decide +kernel)
  refine ⟨by decide +kernel, by decide +kernel, ?_, ?_⟩
  · rw [hrun]
    exact hview
  · rw [hrun]
    exact hhistory

end Search

end TourSearch
