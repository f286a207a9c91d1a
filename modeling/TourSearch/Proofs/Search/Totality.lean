import TourSearch.Proofs.Search.Restoration
import TourSearch.Proofs.Search.Soundness
import Mathlib

/-!
Steps that cannot fail. A move of the trail succeeds when the decisions of the node can be applied
one after the other, no matter where the trail stands (`Trail.Obliges.calm_plan`). A round of cuts
and the closing of a node succeed when the partners answer what they are asked and at least one of
the violated cuts is new. A search whose steps do not fail, and which is given enough of them, comes
to its end (`exists_ended`) and has a result (`Between.exists_complete`).
-/

namespace TourSearch

open Numeric

/-! ### Moves -/

namespace Trail

variable {μ σ τ : Type} {perform : Call μ → Action σ Unit} {view : σ → τ}
  {act : Act → Decision μ → τ → Except Fault τ} {calls rest : List (Call μ)} {s s' : σ}

structure Obliges (perform : Call μ → Action σ Unit) (view : σ → τ)
    (act : Act → Decision μ → τ → Except Fault τ) : Prop where
  act_ok : ∀ {a d s x}, act a d (view s) = .ok x → ((perform (.act a d)).runOn s).1 = .ok ()
  notify_ok : ∀ name a d s, ((perform (.notify name a d)).runOn s).1 = .ok ()

theorem Obliges.takesBack (h : Obliges perform view act) : TakesBack perform view act :=
  fun _ _ _ hact => h.act_ok hact

theorem Calm.append (hcalls : Calm perform calls s)
    (hrest : ∀ s', Performs perform calls s s' → Calm perform rest s') :
    Calm perform (calls ++ rest) s := by
  induction calls generalizing s with
  | nil => exact hrest s (.nil s)
  | cons call calls ih =>
      rw [List.cons_append, Calm]
      rw [Calm] at hcalls
      split
      · rename_i s₁ hcall
        rw [hcall] at hcalls
        exact ih hcalls fun s' hperforms => hrest s' (.cons hcall hperforms)
      · rename_i hcall
        rw [hcall] at hcalls
        exact hcalls

theorem Obliges.calm_notices (h : Obliges perform view act) (names : List String) (a : Act)
    (d : Decision μ) (s : σ) : Calm perform (names.map fun name => .notify name a d) s := by
  induction names generalizing s with
  | nil => trivial
  | cons name names ih =>
      have hok := h.notify_ok name a d s
      rw [List.map_cons, Calm]
      split
      · exact ih _
      · rename_i hcall
        rw [hcall] at hok
        cases hok

/-- An act and the notices of it are calm when the act is allowed or takes a decision back. -/
theorem Obliges.calm_callsFor (h : Obliges perform view act) {names : List String} {a : Act}
    {d : Decision μ} (hact : a = .revert ∨ ∃ x, act a d (view s) = .ok x) :
    Calm perform (callsFor names a d) s := by
  rw [callsFor, Calm]
  split
  · exact h.calm_notices names a d _
  · rename_i hcall
    rcases hact with rfl | ⟨x, hx⟩
    · rfl
    · have hok := h.act_ok hx
      rw [hcall] at hok
      cases hok

theorem Obliges.calm_reverts (h : Obliges perform view act) (names : List String)
    (ds : List (Decision μ)) (s : σ) : Calm perform (ds.flatMap (callsFor names .revert)) s := by
  induction ds generalizing s with
  | nil => trivial
  | cons d ds ih =>
      rw [List.flatMap_cons]
      exact (h.calm_callsFor (Or.inl rfl)).append fun s' _ => ih s'

theorem Obliges.calm_applies (h : Obliges perform view act) (hacts : ActsOn perform view act)
    {names : List String} {es : List (Decision μ)} {x : τ}
    (hes : applyAll act es (view s) = .ok x) :
    Calm perform (es.flatMap (callsFor names .apply)) s := by
  induction es generalizing s with
  | nil => trivial
  | cons e es ih =>
      obtain ⟨y, hy, hrest⟩ := except_bind_eq_ok.mp hes
      rw [List.flatMap_cons]
      refine (h.calm_callsFor (Or.inr ⟨y, hy⟩)).append fun s' hperforms => ih ?_
      have hview := hacts.callsFor hperforms
      rwa [Except.ok.inj (hy.symm.trans hview)] at hrest

/-- A move to a path that can be applied from the beginning is calm. -/
theorem Obliges.calm_plan (h : Obliges perform view act) (hacts : ActsOn perform view act)
    {names : List String} {history path : List (Decision μ)} {k : Nat} {x₀ x : τ}
    (htake : history.take k = path.take k) (hk : k ≤ history.length)
    (hundo : Undoes act history x₀) (hs : applyAll act history x₀ = .ok (view s))
    (hpath : applyAll act path x₀ = .ok x) : Calm perform (plan names history path k) s := by
  refine (h.calm_reverts names _ s).append fun s' hperforms => ?_
  -- With the rest taken back, what is applied is the part that both paths share.
  rw [← List.take_append_drop k history] at hundo hs
  have hs' := hacts.reverts hundo hs hperforms
  rw [Nat.min_eq_left hk]
  rw [← List.take_append_drop k path, applyAll_append, ← htake, hs'] at hpath
  exact h.calm_applies hacts hpath

end Trail

namespace Search

variable {σ : Type} {S : Setup σ} {view : σ → Restrictions} {F : Set Tour} {tau : Rat}
  {start run run' : Run Extended Move σ} {h : Handle} {fault : Fault}

/-- A move to a node whose decisions can be applied is calm. -/
theorem calm_callsTo {p : Problem Extended Move σ}
    (hacts : Trail.ActsOn p.perform view Trail.moveAct)
    (hobliges : Trail.Obliges p.perform view Trail.moveAct) (hsettled : run.trail.Settled)
    (hid : Decision.Identified (run.trail.history ++ (run.tree.node h).decisions))
    {r₀ r : Restrictions}
    (happlied : Trail.applyAll Trail.moveAct run.trail.history r₀ = .ok (view run.world))
    (hpath : Trail.applyAll Trail.moveAct (run.tree.node h).decisions r₀ = .ok r) :
    Trail.Calm p.perform (callsTo run h) run.world := by
  have hshared := Decision.longestShared_commonPrefixLength run.trail.history
    (run.tree.node h).decisions
  rw [callsTo, hsettled.plan_eq]
  exact hobliges.calm_plan hacts (hshared.take_eq hid) hshared.le_left (Trail.undoes_moveAct _ _)
    happlied hpath

theorem calm_callsHome {p : Problem Extended Move σ}
    (hacts : Trail.ActsOn p.perform view Trail.moveAct)
    (hobliges : Trail.Obliges p.perform view Trail.moveAct) {r₀ : Restrictions}
    (happlied : Trail.applyAll Trail.moveAct run.trail.history r₀ = .ok (view run.world)) :
    Trail.Calm p.perform (callsHome run) run.world :=
  hobliges.calm_plan hacts rfl (Nat.zero_le _) (Trail.undoes_moveAct _ _) happlied rfl

theorem At.safe_goTo (hP : Partners S view)
    (hobliges : Trail.Obliges S.problem.perform view Trail.moveAct) (ha : At S view F tau h run)
    {r : Restrictions}
    (hpath : Trail.applyAll Trail.moveAct (run.tree.node h).decisions Restrictions.empty = .ok r) :
    (Run.goTo S.problem h).Safe run := by
  obtain ⟨k, -, hhistory⟩ := ha.onTree
  have hid : Decision.Identified (run.trail.history ++ (run.tree.node h).decisions) := by
    rw [hhistory]
    intro d hd e he
    rcases List.mem_append.mp hd with hd | hd <;> rcases List.mem_append.mp he with he | he <;>
      exact ha.grown.identified _ _ d hd e he
  have hcalm := calm_callsTo hP.acts hobliges ha.settled hid ha.applied hpath
  obtain ⟨world, hmove, -⟩ := hcalm.moveTo hP.acts hobliges.takesBack (Trail.undoes_moveAct _ _)
    ha.settled.consistent ha.applied ⟨h, (run.tree.node h).decisions⟩
  exact (gives_goTo.mpr ⟨_, world, hmove, rfl⟩).safe

/-- The trail can always go home. -/
theorem Standing.safe_goHome (hP : Partners S view)
    (hobliges : Trail.Obliges S.problem.perform view Trail.moveAct)
    (hs : Standing S view F run) : (Run.goHome S.problem).Safe run := by
  have hcalm := calm_callsHome hP.acts hobliges hs.applied
  obtain ⟨world, hmove, -⟩ := hcalm.moveTo hP.acts hobliges.takesBack (Trail.undoes_moveAct _ _)
    hs.settled.consistent hs.applied run.trail.root
  intro fault run' hfails
  simp only [Action.Fails, Action.runOn, Run.goHome, hs.settled.consistent, if_true, Trail.restore,
    hmove, Prod.mk.injEq, reduceCtorEq, false_and] at hfails

/-! ### Rounds of cuts -/

variable {p : Problem Extended Move σ} {config : SearchConfig Extended}

/-- What the partners must do for a round to succeed with an answer: the values can be separated and
tested, and of violated cuts one is new. -/
structure Serves (p : Problem Extended Move σ) (config : SearchConfig Extended)
    (separator : Separator Extended) (values : EdgeValues Extended) (w : σ) : Prop where
  integral : ∃ integral, values.isIntegral config.integralityTolerance = .ok integral
  found : ∃ cuts, (Run.separated config separator values).1 = .ok cuts ∧
    (cuts ≠ [] → ∃ count w', 0 < count ∧ (p.addCuts cuts).Gives w count w')

theorem safe_onWorld {β : Type} {x : Action σ β} (h : x.Safe run.world) :
    (Run.onWorld x : Action (Run Extended Move σ) β).Safe run := Action.Safe.zoom h

theorem safe_solveRelaxation (hsolve : p.solve.Safe run.world) :
    (Run.solveRelaxation p).Safe run := by
  refine (Action.safe_get run).bind fun _ _ hget => ?_
  obtain ⟨rfl, rfl⟩ := Action.gives_get.mp hget
  refine (safe_onWorld hsolve).bind fun answer _ _ => ?_
  exact (Action.safe_modify _ _).bind fun _ _ _ => Action.safe_pure answer _

theorem safe_separate {values : EdgeValues Extended} {cuts : List (Cut Extended)}
    (hfound : (Run.separated config run.separator values).1 = .ok cuts) :
    (Run.separate p config values).Safe run := by
  refine (Action.safe_get run).bind fun _ _ hget => ?_
  obtain ⟨rfl, rfl⟩ := Action.gives_get.mp hget
  refine (Action.safe_get run).bind fun _ _ hget => ?_
  obtain ⟨rfl, rfl⟩ := Action.gives_get.mp hget
  refine (Action.safe_modify _ _).bind fun _ _ _ => ?_
  refine (Action.safe_ofExcept hfound _).bind fun cuts _ _ => ?_
  exact (Action.safe_modify _ _).bind fun _ _ _ => Action.safe_pure cuts _

theorem safe_addCuts {cuts : List (Cut Extended)} {count : Nat} {w : σ} (hpos : 0 < count)
    (hadd : (p.addCuts cuts).Gives run.world count w) (id : Int) :
    (Run.addCuts p id cuts).Safe run := by
  refine (safe_onWorld hadd.safe).bind fun added _ hgives => ?_
  obtain ⟨_, hgives, -⟩ := gives_onWorld.mp hgives
  obtain ⟨rfl, -⟩ := hadd.unique hgives
  refine (Action.safe_modify _ _).bind fun _ _ _ => ?_
  rw [if_neg (Nat.ne_of_gt hpos)]
  exact Action.safe_pure _ _

/-- A round succeeds when the partners serve every answer. -/
theorem safe_cutRound (hsolve : p.solve.Safe run.world)
    (hserves : ∀ {z values w}, p.solve.Gives run.world (.solved z values) w →
      Serves p config run.separator values w) (id rounds : Int) :
    (cutRound p config id rounds).Safe run := by
  refine (safe_solveRelaxation hsolve).bind fun answer run₁ hfirst => ?_
  obtain ⟨-, hsep, hsolved⟩ := solveRelaxation_spec hfirst
  cases answer with
  | infeasible => exact Action.safe_pure _ _
  | solved z values =>
      obtain ⟨⟨integral, hintegral⟩, cuts, hfound, hadd⟩ := hserves hsolved
      rw [← hsep] at hfound
      refine (Action.safe_get run₁).bind fun _ _ hget => ?_
      obtain ⟨rfl, rfl⟩ := Action.gives_get.mp hget
      split
      · exact Action.safe_pure _ _
      · refine (safe_separate hfound).bind fun cuts' run₂ hsecond => ?_
        obtain ⟨-, hworld, -, hfound'⟩ := separate_spec hsecond
        obtain rfl := Except.ok.inj (hfound.symm.trans hfound')
        split
        · exact Action.safe_pure _ _
        · rename_i hviolated
          refine (Action.safe_ofExcept hintegral run₂).bind fun integral' _ hgives => ?_
          obtain ⟨-, rfl⟩ := Action.gives_ofExcept.mp hgives
          split
          · exact Action.safe_pure _ _
          · -- A round fails if all violated cuts are refused, but one of them is new.
            rw [List.isEmpty_iff] at hviolated
            obtain ⟨count, w', hpos, hadded⟩ := hadd hviolated
            rw [← hworld] at hadded
            exact (safe_addCuts hpos hadded id).bind fun _ _ _ => Action.safe_pure _ _

/-! ### Closing a node -/

/-- A node is closed without failure when its values can be tested and split. -/
theorem safe_close {answer : Answer Extended}
    (hintegral : ∀ {z values}, answer = .solved z values →
      ∃ integral, values.isIntegral config.integralityTolerance = .ok integral)
    (hcandidates : ∀ {z values}, answer = .solved z values →
      ∀ n w, (p.candidates n values).Safe w) :
    (Run.close p config h answer).Safe run := by
  cases answer with
  | infeasible => exact Action.safe_modify _ _
  | solved z values =>
      obtain ⟨integral, hintegral⟩ := hintegral rfl
      refine (Action.safe_modify _ _).bind fun _ run₁ _ =>
        (Action.safe_get run₁).bind fun _ _ _ => ?_
      dsimp only
      split
      · exact Action.safe_modify _ _
      · refine (Action.safe_ofExcept hintegral _).bind fun integral' _ _ => ?_
        split
        · exact Action.safe_modify _ _
        · refine (Action.safe_get _).bind fun _ _ _ => ?_
          refine (safe_onWorld (hcandidates rfl _ _)).bind fun cs _ _ => ?_
          split <;> exact Action.safe_modify _ _

/-! ### Taking up a node -/

theorem safe_report (hfrequency : config.logFrequency ≠ 0) : (Run.report p config h).Safe run := by
  unfold Run.report
  -- `hfrequency` rules out the branch that fails, and `split` drops it.
  split
  · refine (Action.safe_get run).bind fun _ _ _ => ?_
    split
    · exact Action.safe_modify _ _
    · exact Action.safe_pure _ _
  · exact Action.safe_pure _ _

theorem safe_between (hfrequency : config.logFrequency ≠ 0) :
    (advance p config .between).Safe run := by
  refine (Action.safe_get run).bind fun _ _ _ => ?_
  split
  · exact Action.safe_pure _ _
  · refine Action.Safe.bind (fun _ _ => not_fails_nextNode) fun next _ _ => ?_
    cases next with
    | none => exact Action.safe_pure _ _
    | some h =>
        refine Action.Safe.bind ?_ fun _ _ _ => Action.safe_pure _ _
        exact (Action.safe_modify _ _).bind fun _ _ _ => safe_report hfrequency

/-! ### Whole searches -/

theorem started_advance {μ : Type} {p : Problem Extended μ σ} (place : Place Extended) :
    (advance p config place).Leaves (·.started) := by
  cases place with
  | between =>
      refine Action.leaves_get.bind fun run => ?_
      split
      · exact Action.leaves_pure _
      · refine Action.Leaves.bind (fun _ => rfl) fun next => ?_
        cases next with
        | none => exact Action.leaves_pure _
        | some h =>
            exact (leaves_takeUp (fun _ _ _ _ _ _ => rfl) fun _ _ _ => rfl).bind fun _ =>
              Action.leaves_pure _
  | moving h =>
      exact (leaves_goTo fun _ _ _ => rfl).bind fun _ => Action.leaves_pure _
  | solving h rounds =>
      refine Action.leaves_get.bind fun run => ?_
      refine (leaves_cutRound (fun _ _ _ _ _ _ => rfl) (fun _ => rfl) (fun _ _ => rfl) _ _).bind
        fun answer => ?_
      cases answer with
      | none => exact Action.leaves_pure _
      | some answer => exact Action.leaves_pure _
  | closing h answer =>
      exact (leaves_close (fun _ _ _ _ => rfl) (fun _ _ _ => rfl) answer).bind fun _ =>
        Action.leaves_pure _
  | closed h => exact (leaves_afterNode fun _ _ _ => rfl).bind fun _ => Action.leaves_pure _
  | ended => exact Action.leaves_pure _

theorem Reaches.started_eq {μ : Type} {p : Problem Extended μ σ} {start run : Run Extended μ σ}
    {place : Place Extended} (hreached : Reaches p config start place run) :
    run.started = start.started := by
  induction hreached with
  | start => rfl
  | step _ next ih => exact ((started_advance _).of_gives next).trans ih

/-- A search whose steps do not fail comes to its end, if it is given more steps than it has nodes,
and at every node more than it has rounds. -/
theorem exists_ended {steps : Nat}
    (hsafe : ∀ {place run}, Reaches p config start place run → (advance p config place).Safe run)
    (hrounds : ∀ {h rounds run}, Reaches p config start (.solving h rounds) run → rounds < steps)
    (hnodes : ∀ {run}, Reaches p config start .between run →
      run.explored < start.explored + steps) :
    ∃ run, (Run.exploreAll p config steps steps).Gives start () run ∧
      Reaches p config start .ended run := by
  have hexplore : (Run.exploreAll p config steps steps).Safe start := by
    intro fault run' hfails
    -- A search that does not end stops at a step that fails, or runs out of rounds or of nodes.
    cases Reaches.start.stops_exploreAll (Nat.le_refl _) hfails with
    | failure reached failed => exact hsafe reached _ _ failed
    | rounds reached => exact absurd (hrounds reached) (Nat.lt_irrefl _)
    | nodes reached explored => exact absurd (hnodes reached) (Nat.not_lt.mpr explored)
  obtain ⟨_, run, hgives⟩ := hexplore.gives
  exact ⟨run, hgives, Reaches.start.exploreAll hgives⟩

/-- A search that comes to its end has a result. -/
theorem Between.exists_complete (hP : Partners S view)
    (hobliges : Trail.Obliges S.problem.perform view Trail.moveAct) (hb : Between S view F tau run)
    {steps : Nat} (hended : (Run.exploreAll S.problem S.config steps steps).Gives start () run) :
    ∃ solution run', start.complete S.problem S.config steps = (.ok solution, run') ∧
      run'.queue = run.queue := by
  have hsearch : (Run.search S.problem S.config steps).runOn start = (.ok (), { run with
      tree := run.tree.setLower
        (Scalar.smaller (run.queue.bestBound run.tree) run.tree.stats.upper) }) :=
    Action.gives_bind.mpr ⟨(), run, hended, Action.gives_modify.mpr rfl⟩
  have hstanding : Standing S view F { run with
      tree := run.tree.setLower
        (Scalar.smaller (run.queue.bestBound run.tree) run.tree.stats.upper) } :=
    hb.toStanding.reseat rfl rfl hb.conclude.incumbent
  obtain ⟨_, home, hhome⟩ := (hstanding.safe_goHome hP hobliges).gives
  refine ⟨home.solution S.problem S.config, home, ?_, ?_⟩
  · rw [complete_of_goHome (by rw [hsearch]; exact hhome), hsearch]
    rfl
  · rw [gives_goHome hhome]

end Search

end TourSearch
