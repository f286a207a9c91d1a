import TourSearch.Proofs.Search.Course
import Mathlib

/-!
Why a search fails. Computations with edge values fail only for what is wrong with the values or
with the graph they are put on (`Fault.OfValues`). The ways in which a single step fails are listed
once, in `Breaks`; everything else that a search reports comes from one of its partners, from a
trail that is inconsistent, or from too few steps (`Breaks.source`, `complete_source`).
-/

namespace TourSearch

open Numeric

/-- What can be wrong with edge values and the graph they are put on. -/
def Fault.OfValues : Fault → Prop
  | .tooManyEnds | .tooFewEnds _ | .missingVertex _ | .emptyCut | .negativeCutCount _
  | .vertexNotInGraph _ | .sameTerminals | .unboundedFlow | .unboundedCut | .notPrepared _
  | .undefinedTruncation | .infiniteTruncation => True
  | _ => False

/-! ### Computations with edge values -/

def BlamesValues {β : Type} (x : Except Fault β) : Prop :=
  ∀ fault, x = .error fault → fault.OfValues

namespace BlamesValues

variable {α β γ : Type} [Scalar α]

omit [Scalar α] in
theorem ok (b : β) : BlamesValues (.ok b : Except Fault β) := fun _ h => by cases h

omit [Scalar α] in
theorem error {fault : Fault} (h : fault.OfValues) : BlamesValues (.error fault : Except Fault β) :=
  fun _ heq => Except.error.inj heq ▸ h

omit [Scalar α] in
theorem bind {x : Except Fault β} {f : β → Except Fault γ} (hx : BlamesValues x)
    (hf : ∀ b, BlamesValues (f b)) : BlamesValues (x >>= f) := by
  cases x with
  | error fault => exact error (hx fault rfl)
  | ok b => exact hf b

omit [Scalar α] in
theorem map {x : Except Fault β} (hx : BlamesValues x) (f : β → γ) : BlamesValues (x.map f) := by
  cases x with
  | error fault => exact error (hx fault rfl)
  | ok b => exact ok (f b)

theorem endpoints (kind : GraphKind) (e : Edge) : BlamesValues (kind.endpoints e) := by
  have hpair : BlamesValues (asPair e) := by
    unfold asPair
    split
    · exact ok _
    · exact error trivial
    · exact error trivial
    · exact error trivial
  unfold GraphKind.endpoints
  split
  · split
    · exact ok _
    · exact hpair
  · exact hpair

theorem addValue (g : CutGraph α) (e : Edge) (value : α) : BlamesValues (g.addValue e value) := by
  unfold CutGraph.addValue
  split
  · exact ok g
  · refine (endpoints _ e).bind fun ends => ?_
    dsimp only
    split
    · exact ok g
    · unfold CutGraph.addWeight
      split
      · exact ok _
      · exact error trivial

theorem refresh (g : CutGraph α) (values : EdgeValues α) : BlamesValues (g.refresh values).1 := by
  have hadd : ∀ (entries : List (Edge × α)) (g : CutGraph α),
      BlamesValues (g.addValues entries).1 := by
    intro entries
    induction entries with
    | nil => exact fun _ => ok ()
    | cons entry rest ih =>
        intro g
        obtain ⟨e, value⟩ := entry
        rw [CutGraph.addValues]
        cases hvalue : g.addValue e value with
        | error fault => exact error (addValue g e value fault hvalue)
        | ok g' => exact ih g'
  exact hadd values.entries _

omit [Scalar α] in
theorem cut (side : VertexSet) (value : α) : BlamesValues (Cut.make side value) := by
  unfold Cut.make
  split
  · exact error trivial
  · exact ok _

theorem leastCut (g : CutGraph α) : BlamesValues (Separator.leastCut g) := by
  unfold Separator.leastCut
  split
  · unfold MinCut.globalCut
    dsimp only
    split
    · exact error trivial
    · split
      · exact error trivial
      · exact ok _
  · split
    · exact error trivial
    · exact ok _

theorem single (s : Separator α) (values : EdgeValues α) : BlamesValues (s.single values).1 := by
  refine (refresh s.graph values).bind fun _ => ?_
  unfold Separator.violatedLeast
  split
  · exact ok none
  · refine (leastCut _).bind fun found => ?_
    dsimp only
    split
    · exact (cut _ _).bind fun _ => ok _
    · exact ok none

theorem minCut (strategy : MinCutStrategy α) (source sink : Vertex) :
    BlamesValues (strategy.minCut source sink) := by
  unfold MinCutStrategy.minCut
  split
  · unfold FlowGraph.minCut
    split
    · exact error trivial
    · split
      · exact error trivial
      · split
        · exact error trivial
        · split
          · exact error trivial
          · exact ok _
  · exact error trivial

theorem sinkCut (strategy : MinCutStrategy α) (source sink : Vertex) :
    BlamesValues (Separator.sinkCut strategy source sink) := by
  refine (minCut strategy source sink).bind fun found => ?_
  dsimp only
  split
  · exact (cut _ _).bind fun _ => ok _
  · exact ok none

theorem visitCuts {β : Type} (strategy : MinCutStrategy α) (source : Vertex)
    (visit : β → Cut α → ForInStep β) (b : β) (sinks : List Vertex) :
    BlamesValues (Separator.visitCuts strategy source visit b sinks) := by
  induction sinks generalizing b with
  | nil => exact ok b
  | cons sink rest ih =>
      refine (sinkCut strategy source sink).bind fun cut => ?_
      cases cut with
      | none => exact ih b
      | some cut =>
          dsimp only
          split
          · exact ok _
          · exact ih _

theorem scan {β : Type} (s : Separator α) (values : EdgeValues α) (first : β)
    (visit : β → Cut α → ForInStep β) : BlamesValues (s.scan values first visit).1 := by
  unfold Separator.scan
  dsimp only
  split
  · unfold Separator.visitSinks
    split
    · exact visitCuts _ _ _ _ _
    · exact ok _
  · rename_i fault hrefresh
    exact error (refresh s.graph values fault hrefresh)

theorem several {β : Type} (s : Separator α) (values : EdgeValues α) (maxCuts : Int) (first : β)
    (visit : Nat → β → Cut α → ForInStep β) (chosen : β → List (Cut α)) :
    BlamesValues (s.several values maxCuts first visit chosen).1 := by
  unfold Separator.several
  split
  · exact error trivial
  · split
    · exact ok _
    · exact (scan s values first _).map chosen

theorem separated (config : SearchConfig α) (s : Separator α) (values : EdgeValues α) :
    BlamesValues (Run.separated config s values).1 := by
  unfold Run.separated
  split
  · exact (single s values).map _
  · exact several s values _ _ _ _
  · exact several s values _ _ _ _

theorem fraction (value : α) : BlamesValues (Scalar.fraction value) := by
  refine bind ?_ fun _ => ok _
  unfold Scalar.truncate
  split
  · exact error trivial
  · exact error trivial
  · exact ok _

theorem isIntegral (values : EdgeValues α) (tolerance : α) :
    BlamesValues (values.isIntegral tolerance) := by
  unfold EdgeValues.isIntegral
  induction values.entries with
  | nil => exact ok true
  | cons entry rest ih =>
      refine (fraction entry.2).bind fun frac => ?_
      split
      · exact ok false
      · exact ih

theorem candidates (b : EdgeBranching α) (id : Nat) (values : EdgeValues α) :
    BlamesValues (b.candidates id values) := by
  refine bind ?_ fun _ => ok _
  induction values.entries with
  | nil => exact ok []
  | cons entry rest ih =>
      refine bind ?_ fun _ => ih.bind fun _ => ok _
      refine (fraction entry.2).bind fun frac => ?_
      split
      · exact ok none
      · exact ok _

end BlamesValues

/-! ### Moves of the trail -/

theorem Trail.moveTo_fault {μ σ : Type} {perform : Call μ → Action σ Unit} {stop : Stop μ}
    {calls : List (Call μ)} {t : Trail μ} {s : σ} {fault : Fault}
    (h : (t.moveTo perform stop calls s).1 = .error fault) :
    fault = .inconsistentTrail ∨ ∃ call s₁ s₂, (perform call).Fails s₁ fault s₂ := by
  have hcarry : ∀ (calls : List (Call μ)) (t : Trail μ) (s : σ),
      (carryOut perform calls t s).1 = .error fault →
        ∃ call s₁ s₂, (perform call).Fails s₁ fault s₂ := by
    intro calls
    induction calls with
    | nil => exact fun _ _ h => by cases h
    | cons call rest ih =>
        intro t s h
        rw [carryOut] at h
        split at h
        · exact ih _ _ h
        · rename_i cause s' hcall
          obtain rfl : cause = fault := Except.error.inj h
          exact ⟨call, s, s', hcall⟩
  unfold moveTo at h
  split at h
  · right
    split at h
    · cases h
    · exact hcarry calls t s h
  · exact Or.inl (Except.error.inj h).symm

/-! ### Steps -/

inductive Problem.Raises {α μ σ : Type} (p : Problem α μ σ) (fault : Fault) : Prop where
  | solve {w w' : σ} (failed : p.solve.Fails w fault w')
  | addCuts {cuts : List (Cut α)} {w w' : σ} (failed : (p.addCuts cuts).Fails w fault w')
  | perform {call : Call μ} {w w' : σ} (failed : (p.perform call).Fails w fault w')
  | candidates {n : Node α μ} {values : EdgeValues α} {w w' : σ}
      (failed : (p.candidates n values).Fails w fault w')
  | afterNode {h : Handle} {t t' : Tree α μ} {w w' : σ}
      (failed : (p.afterNode h).Fails (t, w) fault (t', w'))

namespace Search

variable {μ σ : Type} {p : Problem Extended μ σ} {config : SearchConfig Extended}
  {start run run' : Run Extended μ σ} {place : Place Extended} {h : Handle} {fault : Fault}

theorem fails_onWorld {β : Type} {x : Action σ β} :
    (Run.onWorld x : Action (Run Extended μ σ) β).Fails run fault run' ↔
      ∃ w, x.Fails run.world fault w ∧ { run with world := w } = run' := Action.fails_zoom

/-- The ways in which a step fails, by the places at which they happen. -/
inductive Breaks (p : Problem Extended μ σ) (config : SearchConfig Extended) :
    Place Extended → Run Extended μ σ → Fault → Prop where
  | report {run : Run Extended μ σ} : Breaks p config .between run .logFrequencyZero
  | move {run run' : Run Extended μ σ} {h : Handle} {fault : Fault}
      (failed : (Run.goTo p h).Fails run fault run') : Breaks p config (.moving h) run fault
  | solve {run : Run Extended μ σ} {h : Handle} {rounds : Nat} {fault : Fault} {w : σ}
      (failed : p.solve.Fails run.world fault w) : Breaks p config (.solving h rounds) run fault
  | values {run : Run Extended μ σ} {h : Handle} {rounds : Nat} {fault : Fault}
      (wrong : fault.OfValues) : Breaks p config (.solving h rounds) run fault
  | addCuts {run : Run Extended μ σ} {h : Handle} {rounds : Nat} {fault : Fault}
      {cuts : List (Cut Extended)} {w w' : σ} (failed : (p.addCuts cuts).Fails w fault w') :
      Breaks p config (.solving h rounds) run fault
  | rejected {run : Run Extended μ σ} {h : Handle} {rounds : Nat} {z : Extended}
      {values : EdgeValues Extended} {cuts : List (Cut Extended)} {w w' : σ}
      (solved : p.solve.Gives run.world (.solved z values) w)
      (found : (Run.separated config run.separator values).1 = .ok cuts) (violated : cuts ≠ [])
      (added : (p.addCuts cuts).Gives w 0 w') :
      Breaks p config (.solving h rounds) run (.rejectedCuts cuts.length (run.tree.node h).id)
  | test {run : Run Extended μ σ} {h : Handle} {answer : Answer Extended} {fault : Fault}
      (wrong : fault.OfValues) : Breaks p config (.closing h answer) run fault
  | split {run : Run Extended μ σ} {h : Handle} {answer : Answer Extended} {fault : Fault}
      {n : Node Extended μ} {values : EdgeValues Extended} {w w' : σ}
      (failed : (p.candidates n values).Fails w fault w') :
      Breaks p config (.closing h answer) run fault
  | afterNode {run : Run Extended μ σ} {h : Handle} {fault : Fault} {t : Tree Extended μ} {w : σ}
      (failed : (p.afterNode h).Fails (run.tree, run.world) fault (t, w)) :
      Breaks p config (.closed h) run fault

theorem report_fault (hfails : (Run.report p config h).Fails run fault run') :
    fault = .logFrequencyZero := by
  unfold Run.report at hfails
  split at hfails
  · split at hfails
    · exact (Action.fails_throw.mp hfails).1.symm
    · simp only [Action.fails_bind, Action.fails_get, Action.gives_get, false_or] at hfails
      obtain ⟨_, _, -, hfails⟩ := hfails
      split at hfails
      · exact (Action.fails_modify.mp hfails).elim
      · exact (Action.fails_pure.mp hfails).elim
  · exact (Action.fails_pure.mp hfails).elim

theorem breaks_of_between (hfails : (advance p config .between).Fails run fault run') :
    Breaks p config .between run fault := by
  simp only [advance, Action.fails_bind, Action.fails_get, Action.gives_get, false_or] at hfails
  obtain ⟨_, _, -, hfails⟩ := hfails
  split at hfails
  · exact (Action.fails_pure.mp hfails).elim
  · rcases Action.fails_bind.mp hfails with hnext | ⟨next, _, -, hfails⟩
    · exact absurd hnext not_fails_nextNode
    · cases next with
      | none => exact (Action.fails_pure.mp hfails).elim
      | some h =>
          simp only [takeUp, Action.fails_bind, Action.fails_modify, Action.fails_pure, and_false,
            exists_false, or_false, false_or] at hfails
          obtain ⟨_, _, -, hreport⟩ := hfails
          obtain rfl := report_fault hreport
          exact .report

theorem solveRelaxation_fault (hfails : (Run.solveRelaxation p).Fails run fault run') :
    ∃ w, p.solve.Fails run.world fault w := by
  simp only [Run.solveRelaxation, Action.fails_bind, Action.fails_get, Action.gives_get,
    Action.fails_modify, Action.fails_pure, fails_onWorld, and_false, exists_false, or_false,
    false_or] at hfails
  obtain ⟨_, _, ⟨rfl, rfl⟩, w, hsolve, -⟩ := hfails
  exact ⟨w, hsolve⟩

theorem separate_fault {values : EdgeValues Extended}
    (hfails : (Run.separate p config values).Fails run fault run') : fault.OfValues := by
  simp only [Run.separate, Action.fails_bind, Action.fails_get, Action.gives_get,
    Action.fails_modify, Action.fails_pure, Action.fails_ofExcept, and_false, exists_false,
    or_false, false_or] at hfails
  obtain ⟨_, _, -, _, _, -, _, _, -, hfound, -⟩ := hfails
  exact BlamesValues.separated config _ values fault hfound

/-- Adding cuts fails because the relaxation does, or because it takes none of them. -/
theorem addCuts_fault {id : Int} {cuts : List (Cut Extended)}
    (hfails : (Run.addCuts p id cuts).Fails run fault run') :
    (∃ w, (p.addCuts cuts).Fails run.world fault w) ∨
      fault = .rejectedCuts cuts.length id ∧ ∃ w, (p.addCuts cuts).Gives run.world 0 w := by
  simp only [Run.addCuts, Action.fails_bind, Action.fails_modify, gives_onWorld, fails_onWorld,
    false_or] at hfails
  rcases hfails with ⟨w, hadd, -⟩ | ⟨count, _, ⟨w, hadd, -⟩, _, _, -, hfails⟩
  · exact Or.inl ⟨w, hadd⟩
  · split at hfails
    · rename_i hzero
      exact Or.inr ⟨(Action.fails_throw.mp hfails).1.symm, w, hzero ▸ hadd⟩
    · exact (Action.fails_pure.mp hfails).elim

theorem breaks_of_cutRound {rounds : Nat}
    (hfails : (cutRound p config (run.tree.node h).id rounds).Fails run fault run') :
    Breaks p config (.solving h rounds) run fault := by
  rw [cutRound, Action.fails_bind] at hfails
  rcases hfails with hsolve | ⟨answer, run₁, hsolve, hfails⟩
  · obtain ⟨w, hsolve⟩ := solveRelaxation_fault hsolve
    exact .solve hsolve
  obtain ⟨-, hsep, hsolved⟩ := solveRelaxation_spec hsolve
  cases answer with
  | infeasible => exact (Action.fails_pure.mp hfails).elim
  | solved z values =>
      simp only [Action.fails_bind, Action.fails_get, Action.gives_get, false_or] at hfails
      obtain ⟨_, _, ⟨rfl, rfl⟩, hfails⟩ := hfails
      split at hfails
      · exact (Action.fails_pure.mp hfails).elim
      · rcases Action.fails_bind.mp hfails with hseparate | ⟨cuts, run₂, hseparate, hfails⟩
        · exact .values (separate_fault hseparate)
        obtain ⟨-, hworld, -, hfound⟩ := separate_spec hseparate
        split at hfails
        · exact (Action.fails_pure.mp hfails).elim
        · rename_i hviolated
          rcases Action.fails_bind.mp hfails with hintegral | ⟨integral, run₃, hintegral, hfails⟩
          · exact .values (BlamesValues.isIntegral _ _ fault (Action.fails_ofExcept.mp hintegral).1)
          obtain ⟨-, rfl⟩ := Action.gives_ofExcept.mp hintegral
          split at hfails
          · exact (Action.fails_pure.mp hfails).elim
          · simp only [Action.fails_bind, Action.fails_pure, and_false, exists_false,
              or_false] at hfails
            rcases addCuts_fault hfails with ⟨w, hadd⟩ | ⟨rfl, w, hadd⟩
            · exact .addCuts hadd
            · rw [hsep] at hfound
              rw [hworld] at hadd
              exact .rejected hsolved hfound (fun hnone => hviolated (List.isEmpty_iff.mpr hnone))
                hadd

/-- When a node is closed, only the test of its values and its splitting can fail. It has been
solved then, and the tree is otherwise as before. -/
theorem fails_close {answer : Answer Extended}
    (hfails : (Run.close p config h answer).Fails run fault run') :
    ∃ z values, run'.tree = solvedTree run.tree h z ∧
      (values.isIntegral config.integralityTolerance = .error fault ∨
        ∃ n w w', (p.candidates n values).Fails w fault w') := by
  cases answer with
  | infeasible => exact (Action.fails_modify.mp hfails).elim
  | solved z values =>
      refine ⟨z, values, ?_⟩
      simp only [Run.close, Run.modifyTree, Action.fails_bind, Action.fails_modify,
        Action.gives_modify, Action.fails_get, Action.gives_get, false_or] at hfails
      obtain ⟨_, _, rfl, _, _, ⟨rfl, rfl⟩, hfails⟩ := hfails
      split at hfails
      · exact (Action.fails_modify.mp hfails).elim
      · rcases Action.fails_bind.mp hfails with htest | ⟨integral, _, htest, hfails⟩
        · obtain ⟨herror, rfl⟩ := Action.fails_ofExcept.mp htest
          exact ⟨rfl, Or.inl herror⟩
        obtain ⟨-, rfl⟩ := Action.gives_ofExcept.mp htest
        split at hfails
        · exact (Action.fails_modify.mp hfails).elim
        · simp only [Run.branch, Action.fails_bind, Action.fails_get, Action.gives_get,
            fails_onWorld, false_or] at hfails
          obtain ⟨_, _, ⟨rfl, rfl⟩, ⟨w, hsplit, rfl⟩ | ⟨cs, _, -, hfails⟩⟩ := hfails
          · exact ⟨rfl, Or.inr ⟨_, _, w, hsplit⟩⟩
          · split at hfails <;> exact (Action.fails_modify.mp hfails).elim

theorem breaks_of_close {answer : Answer Extended}
    (hfails : (Run.close p config h answer).Fails run fault run') :
    Breaks p config (.closing h answer) run fault := by
  obtain ⟨z, values, -, herror | ⟨n, w, w', hsplit⟩⟩ := fails_close hfails
  · exact .test (BlamesValues.isIntegral _ _ fault herror)
  · exact .split hsplit

theorem breaks_of_fails (hfails : (advance p config place).Fails run fault run') :
    Breaks p config place run fault := by
  cases place with
  | between => exact breaks_of_between hfails
  | moving h =>
      simp only [advance, Action.fails_bind, Action.fails_pure, and_false, exists_false,
        or_false] at hfails
      exact .move hfails
  | solving h rounds =>
      simp only [advance, Action.fails_bind, Action.fails_get, Action.gives_get, false_or] at hfails
      obtain ⟨_, _, ⟨rfl, rfl⟩, hround | ⟨answer, _, -, hfails⟩⟩ := hfails
      · exact breaks_of_cutRound hround
      · cases answer with
        | none => exact (Action.fails_pure.mp hfails).elim
        | some answer => exact (Action.fails_pure.mp hfails).elim
  | closing h answer =>
      simp only [advance, Action.fails_bind, Action.fails_pure, and_false, exists_false,
        or_false] at hfails
      exact breaks_of_close hfails
  | closed h =>
      simp only [advance, Run.onTreeAndWorld, Action.fails_bind, Action.fails_zoom,
        Action.fails_pure, and_false, exists_false, or_false] at hfails
      obtain ⟨⟨t, w⟩, hafter, -⟩ := hfails
      exact .afterNode hafter
  | ended => exact (Action.fails_pure.mp hfails).elim

/-! ### Whole searches -/

/-- The causes that a search has of its own, apart from cuts that are rejected. -/
def Own (fault : Fault) : Prop :=
  fault = .logFrequencyZero ∨ fault = .inconsistentTrail ∨ fault = .outOfSteps ∨ fault.OfValues

theorem goTo_fault (hfails : (Run.goTo p h).Fails run fault run') :
    Own fault ∨ p.Raises fault := by
  have hmove : (run.trail.transition p.perform ⟨h, (run.tree.node h).decisions⟩ run.world).1 =
      .error fault := congrArg Prod.fst hfails
  rcases Trail.moveTo_fault hmove with rfl | ⟨call, w, w', hcall⟩
  · exact Or.inl (Or.inr (Or.inl rfl))
  · exact Or.inr (.perform hcall)

theorem goHome_fault (hfails : (Run.goHome p).Fails run fault run') :
    Own fault ∨ p.Raises fault := by
  simp only [Action.Fails, Action.runOn, Run.goHome] at hfails
  split at hfails
  · rcases Trail.moveTo_fault (congrArg Prod.fst hfails) with rfl | ⟨call, w, w', hcall⟩
    · exact Or.inl (Or.inr (Or.inl rfl))
    · exact Or.inr (.perform hcall)
  · cases (Prod.mk.inj hfails).1

/-- The relaxation takes none of the cuts that its answer violates. -/
def Rejects (p : Problem Extended μ σ) (config : SearchConfig Extended) (run : Run Extended μ σ) :
    Prop :=
  ∃ z values w cuts w', p.solve.Gives run.world (.solved z values) w ∧
    (Run.separated config run.separator values).1 = .ok cuts ∧ cuts ≠ [] ∧
    (p.addCuts cuts).Gives w 0 w'

/-- What fails at a step is a partner, the search itself, or a round whose cuts are rejected. -/
theorem Breaks.source (hbreaks : Breaks p config place run fault) :
    p.Raises fault ∨ Own fault ∨ ∃ h rounds, place = .solving h rounds ∧ Rejects p config run := by
  cases hbreaks with
  | report => exact Or.inr (Or.inl (Or.inl rfl))
  | move failed => exact (goTo_fault failed).symm.imp_right Or.inl
  | solve failed => exact Or.inl (.solve failed)
  | values wrong => exact Or.inr (Or.inl (Or.inr (Or.inr (Or.inr wrong))))
  | addCuts failed => exact Or.inl (.addCuts failed)
  | rejected solved found violated added =>
      exact Or.inr (Or.inr ⟨_, _, rfl, _, _, _, _, _, solved, found, violated, added⟩)
  | test wrong => exact Or.inr (Or.inl (Or.inr (Or.inr (Or.inr wrong))))
  | split failed => exact Or.inl (.candidates failed)
  | afterNode failed => exact Or.inl (.afterNode failed)

/-- A search that reports a cause has failed at a step, was given too few steps, or could not go
home. -/
theorem stops_of_complete {steps : Nat}
    (hcomplete : (start.complete p config steps).1 = .error fault) :
    (∃ run, Stops p config start steps fault run) ∨
      ∃ run', (Run.goHome p).Fails ((Run.search p config steps).runOn start).2 fault run' := by
  rcases (Run.goHome p).gives_or_fails ((Run.search p config steps).runOn start).2 with
    ⟨_, home, hhome⟩ | ⟨cause, home, hhome⟩
  · rw [complete_of_goHome hhome] at hcomplete
    rcases hsearch : (Run.search p config steps).runOn start with ⟨cause | _, run⟩
    · rw [hsearch] at hcomplete
      obtain rfl : cause = fault := Except.error.inj hcomplete
      rcases Action.fails_bind.mp hsearch with hexplore | ⟨_, _, -, hmodify⟩
      · exact Or.inl ⟨run, Reaches.start.stops_exploreAll (Nat.le_refl _) hexplore⟩
      · exact (Action.fails_modify.mp hmodify).elim
    · rw [hsearch] at hcomplete
      cases hcomplete
  · refine Or.inr ⟨home, ?_⟩
    have hcause : (start.complete p config steps).1 = .error cause := by
      simp only [Run.complete, show (Run.goHome p).runOn _ = _ from hhome]
      rfl
    rwa [Except.error.inj (hcause.symm.trans hcomplete)] at hhome

/-- Where the cause that a search reports comes from. -/
theorem complete_source {steps : Nat}
    (hcomplete : (start.complete p config steps).1 = .error fault) :
    p.Raises fault ∨ Own fault ∨
      ∃ h rounds run, Reaches p config start (.solving h rounds) run ∧ Rejects p config run := by
  rcases stops_of_complete hcomplete with ⟨run, hstops⟩ | ⟨run', hhome⟩
  · cases hstops with
    | @failure place run _ _ reached failed =>
        rcases (breaks_of_fails failed).source with hraises | hown | ⟨h, rounds, rfl, hrejects⟩
        · exact Or.inl hraises
        · exact Or.inr (Or.inl hown)
        · exact Or.inr (Or.inr ⟨h, rounds, run, reached, hrejects⟩)
    | rounds => exact Or.inr (Or.inl (Or.inr (Or.inr (Or.inl rfl))))
    | nodes => exact Or.inr (Or.inl (Or.inr (Or.inr (Or.inl rfl))))
  · exact (goHome_fault hhome).symm.imp_right Or.inl

end Search

end TourSearch
