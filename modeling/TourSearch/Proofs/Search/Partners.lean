import TourSearch.Proofs.Action
import TourSearch.Proofs.Separation.History
import TourSearch.Proofs.Trail
import TourSearch.Search.Script
import Mathlib

/-!
What a search relies on. Its partners act on a world of their own, of which the search knows only
the restrictions that its decisions set. The worlds that it can meet between its calls are
described by `Meets`, and a relaxation is valid for a set of tours when it never excludes or
overrates one of them in such a world.
-/

namespace TourSearch

open Numeric

structure Tour where
  edges : Set VertexSet
  cost : Rat

def Tour.Obeys (T : Tour) (path : List (Decision Move)) : Prop :=
  ∀ d ∈ path, d.move.Obeyed T.edges

theorem Tour.Obeys.allows {T : Tour} {path : List (Decision Move)} (h : T.Obeys path)
    {r r' : Restrictions} (hr : r.Allows T.edges)
    (hpath : Trail.applyAll Trail.moveAct path r = .ok r') : r'.Allows T.edges := by
  induction path generalizing r with
  | nil => exact Except.ok.inj hpath ▸ hr
  | cons d path ih =>
      obtain ⟨r₁, hd, hrest⟩ := except_bind_eq_ok.mp hpath
      exact ih (fun e he => h e (List.mem_cons_of_mem d he))
        ((h d List.mem_cons_self).allows hd hr) hrest

namespace Search

variable {σ : Type}

/-- The parts of a search that stay the same: its partners and settings, the separator, the
listeners, and the world at the beginning. -/
structure Setup (σ : Type) where
  problem : Problem Extended Move σ
  config : SearchConfig Extended
  separator : Separator Extended
  listeners : List String
  world : σ

/-- The worlds that a search can meet between two of its calls. A decision is always followed by the
notices of it, and cuts are separated from the values of the last answer. -/
inductive Meets (S : Setup σ) : σ → Prop
  | start : Meets S S.world
  | solve {w w' : σ} {answer : Answer Extended} (h : Meets S w)
      (step : S.problem.solve.Gives w answer w') : Meets S w'
  | addCuts {w₀ w w' : σ} {z : Extended} {values : EdgeValues Extended}
      {cuts : List (Cut Extended)} {count : Nat} (h : Meets S w₀)
      (solved : S.problem.solve.Gives w₀ (.solved z values) w)
      (found : (Run.separated S.config S.separator values).1 = .ok cuts)
      (step : (S.problem.addCuts cuts).Gives w count w') : Meets S w'
  | decide {w w' : σ} {a : Act} {d : Decision Move} (h : Meets S w)
      (step : Trail.Performs S.problem.perform (Trail.callsFor S.listeners a d) w w') : Meets S w'
  | afterNode {w w' : σ} {node : Handle} {t t' : Tree Extended Move} (h : Meets S w)
      (step : (S.problem.afterNode node).Gives (t, w) () (t', w')) : Meets S w'

theorem Meets.decideAll {S : Setup σ} {w w' : σ} (h : Meets S w) {a : Act}
    {ds : List (Decision Move)}
    (step : Trail.Performs S.problem.perform (ds.flatMap (Trail.callsFor S.listeners a)) w w') :
    Meets S w' := by
  induction ds generalizing w with
  | nil =>
      cases step
      exact h
  | cons d ds ih =>
      rw [List.flatMap_cons] at step
      obtain ⟨w₁, hfirst, hrest⟩ := step.of_append
      exact ih (h.decide hfirst) hrest

theorem Meets.plan {S : Setup σ} {w w' : σ} (h : Meets S w) {history path : List (Decision Move)}
    {k : Nat}
    (step : Trail.Performs S.problem.perform (Trail.plan S.listeners history path k) w w') :
    Meets S w' := by
  obtain ⟨w₁, hreverts, happlies⟩ := step.of_append
  exact (h.decideAll hreverts).decideAll happlies

def BranchesOnEdges (p : Problem Extended Move σ) (tolerance : Extended) : Prop :=
  ∀ n values w, (p.candidates n values).runOn w =
    ((⟨tolerance, 20⟩ : EdgeBranching Extended).candidates n.id.toNat values, w)

/-- The partners do what their parts say: decisions act on the restrictions and nothing else does,
edges are branched on with the tolerance of the settings, and what is done after a node leaves the
tree alone. -/
structure Partners (S : Setup σ) (view : σ → Restrictions) : Prop where
  empty : view S.world = Restrictions.empty
  acts : Trail.ActsOn S.problem.perform view Trail.moveAct
  solve_view : ∀ {w w' answer}, S.problem.solve.Gives w answer w' → view w' = view w
  addCuts_view : ∀ {cuts w w' count}, (S.problem.addCuts cuts).Gives w count w' → view w' = view w
  branching : ∀ n values w, (S.problem.candidates n values).runOn w =
    ((⟨S.config.integralityTolerance, 20⟩ : EdgeBranching Extended).candidates n.id.toNat values, w)
  afterNode : ∀ {node t t' w w'}, (S.problem.afterNode node).Gives (t, w) () (t', w') →
    t' = t ∧ view w' = view w

/-- An answer with integral values for which separation finds no cut. -/
structure Accepted (S : Setup σ) (z : Extended) (values : EdgeValues Extended) : Prop where
  answer : ∃ w w', Meets S w ∧ S.problem.solve.Gives w (.solved z values) w'
  integral : values.isIntegral S.config.integralityTolerance = .ok true
  uncut : (Run.separated S.config S.separator values).1 = .ok []

/-- A relaxation is valid for a set of tours: it excludes and overrates none that the restrictions
allow, and integral values without a violated cut have the cost of a tour. -/
structure Valid (S : Setup σ) (view : σ → Restrictions) (F : Set Tour) : Prop where
  infeasible : ∀ {w w'}, Meets S w → S.problem.solve.Gives w .infeasible w' →
    ∀ T ∈ F, ¬(view w).Allows T.edges
  bound : ∀ {w w' z values}, Meets S w → S.problem.solve.Gives w (.solved z values) w' →
    z ≠ .undefined → ∀ T ∈ F, (view w).Allows T.edges → z ≤ .finite T.cost
  integral : ∀ {z values}, Accepted S z values → ∃ T ∈ F, z = .finite T.cost

theorem partners_script (rules : List (ScriptRule Extended)) (acceptance : Acceptance)
    (config : SearchConfig Extended) (separator : Separator Extended) (listeners : List String)
    {stage : Stage Extended} (hempty : stage.restrictions = Restrictions.empty) :
    Partners ⟨Script.problem ⟨rules, acceptance, []⟩ (.edges ⟨config.integralityTolerance, 20⟩),
      config, separator, listeners, stage⟩ Stage.restrictions where
  empty := hempty
  acts := Trail.actsOn_stage
  solve_view := by
    intro w w' answer h
    simp only [Script.problem, Action.Gives, Action.runOn, Script.solve] at h
    split at h <;> exact (congrArg (fun r => r.2.restrictions) h).symm
  addCuts_view := by
    intro cuts w w' count h
    exact (congrArg (fun r => r.2.restrictions) h).symm
  branching := fun _ _ _ => rfl
  afterNode := by
    intro node t t' w w' h
    exact ⟨(congrArg (fun r => r.2.1) h).symm, (congrArg (fun r => r.2.2.restrictions) h).symm⟩

end Search

end TourSearch
