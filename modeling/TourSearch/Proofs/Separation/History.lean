import TourSearch.Search.Run
import TourSearch.Proofs.Graph.Refresh
import Mathlib

/-!
Separation does not depend on what was separated before. Every answer starts from weights that are
set anew and from a strategy that is prepared anew, and only in these two does the state that it
leaves differ from the one before.
-/

namespace TourSearch

open Numeric

namespace Separator

/-- Two separators of one graph that differ only in their weights and in what their strategies are
prepared for. -/
def Like (s s' : Separator Extended) : Prop :=
  s.graph.resetWeights = s'.graph.resetWeights ∧ s.method = s'.method

theorem Like.refl (s : Separator Extended) : s.Like s := ⟨rfl, rfl⟩

theorem Like.trans {s₁ s₂ s₃ : Separator Extended} (h₁ : s₁.Like s₂) (h₂ : s₂.Like s₃) :
    s₁.Like s₃ := ⟨h₁.1.trans h₂.1, h₁.2.trans h₂.2⟩

theorem refresh_congr {s s' : Separator Extended}
    (h : s.graph.resetWeights = s'.graph.resetWeights) (values : EdgeValues Extended) :
    s.graph.refresh values = s'.graph.refresh values := by
  rw [CutGraph.refresh, CutGraph.refresh, h]

theorem resetWeights_refresh (c : CutGraph Extended) (values : EdgeValues Extended) :
    (c.refresh values).2.resetWeights = c.resetWeights := by
  rw [CutGraph.refresh, CutGraph.resetWeights_addValues, CutGraph.resetWeights_resetWeights]

theorem single_congr {s s' : Separator Extended}
    (h : s.graph.resetWeights = s'.graph.resetWeights) (values : EdgeValues Extended) :
    (s.single values).1 = (s'.single values).1 := by
  show ((s.graph.refresh values).1 >>= fun _ => violatedLeast (s.graph.refresh values).2) =
    ((s'.graph.refresh values).1 >>= fun _ => violatedLeast (s'.graph.refresh values).2)
  rw [refresh_congr h]

theorem like_single (s : Separator Extended) (values : EdgeValues Extended) :
    (s.single values).2.Like s := ⟨resetWeights_refresh _ _, rfl⟩

variable {β : Type}

theorem scan_of_ok {s : Separator Extended} {values : EdgeValues Extended}
    (hok : (s.graph.refresh values).1 = .ok ()) (first : β)
    (visit : β → Cut Extended → ForInStep β) :
    s.scan values first visit =
      visitSinks { s with graph := (s.graph.refresh values).2 } first visit := by
  simp only [scan, hok]

theorem scan_of_error {s : Separator Extended} {values : EdgeValues Extended} {fault : Fault}
    (herror : (s.graph.refresh values).1 = .error fault) (first : β)
    (visit : β → Cut Extended → ForInStep β) :
    s.scan values first visit = (.error fault, { s with graph := (s.graph.refresh values).2 }) := by
  simp only [scan, herror]

/-- A prepared strategy answers for the graph, whatever its method and what it was prepared for
before. -/
theorem visitCuts_prepare (strategy strategy' : MinCutStrategy Extended) (g : FlowGraph Extended)
    (source : Vertex) (visit : β → Cut Extended → ForInStep β) (b : β) (sinks : List Vertex) :
    visitCuts (strategy.prepare g) source visit b sinks =
      visitCuts (strategy'.prepare g) source visit b sinks := by
  have hsinkCut : ∀ sink,
      sinkCut (strategy.prepare g) source sink = sinkCut (strategy'.prepare g) source sink :=
    fun _ => rfl
  induction sinks generalizing b with
  | nil => rfl
  | cons sink rest ih => simp only [visitCuts, hsinkCut, ih]

theorem visitSinks_congr {s s' : Separator Extended} (h : s.graph = s'.graph) (first : β)
    (visit : β → Cut Extended → ForInStep β) :
    (s.visitSinks first visit).1 = (s'.visitSinks first visit).1 := by
  simp only [visitSinks, h]
  split
  · exact visitCuts_prepare _ _ _ _ _ _ _
  · rfl

theorem like_visitSinks (s : Separator Extended) (first : β)
    (visit : β → Cut Extended → ForInStep β) : (s.visitSinks first visit).2.Like s := by
  unfold visitSinks
  split
  · exact ⟨rfl, rfl⟩
  · exact .refl s

theorem scan_congr {s s' : Separator Extended}
    (h : s.graph.resetWeights = s'.graph.resetWeights) (values : EdgeValues Extended) (first : β)
    (visit : β → Cut Extended → ForInStep β) :
    (s.scan values first visit).1 = (s'.scan values first visit).1 := by
  have hsame := refresh_congr h values
  cases hrefresh : (s'.graph.refresh values).1 with
  | error fault => rw [scan_of_error (hsame ▸ hrefresh), scan_of_error hrefresh]
  | ok =>
      rw [scan_of_ok (hsame ▸ hrefresh), scan_of_ok hrefresh]
      apply visitSinks_congr
      exact congrArg Prod.snd hsame

theorem like_scan (s : Separator Extended) (values : EdgeValues Extended) (first : β)
    (visit : β → Cut Extended → ForInStep β) : (s.scan values first visit).2.Like s := by
  have hrefreshed : ({ s with graph := (s.graph.refresh values).2 } : Separator Extended).Like s :=
    ⟨resetWeights_refresh _ _, rfl⟩
  cases hrefresh : (s.graph.refresh values).1 with
  | error fault =>
      rw [scan_of_error hrefresh]
      exact hrefreshed
  | ok =>
      rw [scan_of_ok hrefresh]
      exact (like_visitSinks _ first visit).trans hrefreshed

theorem several_of_pos (s : Separator Extended) (values : EdgeValues Extended) {maxCuts : Int}
    (hpos : 0 < maxCuts) (first : β) (visit : Nat → β → Cut Extended → ForInStep β)
    (chosen : β → List (Cut Extended)) :
    s.several values maxCuts first visit chosen =
      ((s.scan values first (visit maxCuts.toNat)).1.map chosen,
        (s.scan values first (visit maxCuts.toNat)).2) := by
  rw [several, if_neg (by omega), if_neg (by omega)]

theorem several_congr {s s' : Separator Extended}
    (h : s.graph.resetWeights = s'.graph.resetWeights) (values : EdgeValues Extended)
    (maxCuts : Int) (first : β) (visit : Nat → β → Cut Extended → ForInStep β)
    (chosen : β → List (Cut Extended)) :
    (s.several values maxCuts first visit chosen).1 =
      (s'.several values maxCuts first visit chosen).1 := by
  by_cases hpos : 0 < maxCuts
  · rw [several_of_pos _ _ hpos, several_of_pos _ _ hpos, scan_congr h]
  · unfold Separator.several
    by_cases hneg : maxCuts < 0
    · rw [if_pos hneg, if_pos hneg]
    · rw [if_neg hneg, if_neg hneg, if_pos (by omega), if_pos (by omega)]

theorem like_several (s : Separator Extended) (values : EdgeValues Extended) (maxCuts : Int)
    (first : β) (visit : Nat → β → Cut Extended → ForInStep β) (chosen : β → List (Cut Extended)) :
    (s.several values maxCuts first visit chosen).2.Like s := by
  by_cases hpos : 0 < maxCuts
  · rw [several_of_pos _ _ hpos]
    exact s.like_scan values first _
  · unfold Separator.several
    by_cases hneg : maxCuts < 0
    · rw [if_pos hneg]
      exact Like.refl s
    · rw [if_neg hneg, if_pos (by omega)]
      exact Like.refl s

end Separator

namespace Run

/-- What is separated depends on the graph, the method and the values only. -/
theorem separated_congr (config : SearchConfig Extended) {s s' : Separator Extended}
    (h : s.Like s') (values : EdgeValues Extended) :
    (separated config s values).1 = (separated config s' values).1 := by
  unfold separated
  cases config.cutMode with
  | single => exact congrArg (Except.map Option.toList) (Separator.single_congr h.1 values)
  | any => exact Separator.several_congr h.1 values _ _ _ _
  | mostViolated => exact Separator.several_congr h.1 values _ _ _ _

theorem like_separated (config : SearchConfig Extended) (s : Separator Extended)
    (values : EdgeValues Extended) : (separated config s values).2.Like s := by
  unfold separated
  cases config.cutMode with
  | single => exact s.like_single values
  | any => exact s.like_several values _ _ _ _
  | mostViolated => exact s.like_several values _ _ _ _

end Run

end TourSearch
