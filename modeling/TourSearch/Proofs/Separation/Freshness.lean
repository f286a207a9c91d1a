import TourSearch.Proofs.Separation.History
import TourSearch.Proofs.Separation.Least
import Mathlib

/-!
A separator that has been used is as good as a new one. It may have been asked for cuts with success
or in vain, its working graph may carry any weights, and its strategy may have been prepared for
another graph. The next refresh sets the weights to what the edge values say and to nothing else, it
fails exactly when a value is given for a foreign edge, and cuts are separated as by a new separator
of the graph (`answers_as_new`).
-/

namespace TourSearch

open Numeric

namespace Separator

/-! ### Uses of a separator -/

/-- What is done with a separator, its working graph or its strategy. -/
inductive Query where
  | single (values : EdgeValues Extended)
  | any (values : EdgeValues Extended) (maxCuts : Int)
  | mostViolated (values : EdgeValues Extended) (maxCuts : Int)
  | refresh (values : EdgeValues Extended)
  | addWeight (u v : Vertex) (value : Extended)
  | resetWeights
  | prepare (g : FlowGraph Extended)

/-- The separator after a query, also when the query failed. -/
def ask (s : Separator Extended) : Query → Separator Extended
  | .single values => (s.single values).2
  | .any values maxCuts => (s.any values maxCuts).2
  | .mostViolated values maxCuts => (s.mostViolated values maxCuts).2
  | .refresh values => { s with graph := (s.graph.refresh values).2 }
  | .addWeight u v value =>
      match s.graph.addWeight u v value with
      | .ok graph => { s with graph }
      | .error _ => s
  | .resetWeights => { s with graph := s.graph.resetWeights }
  | .prepare g => { s with strategy := s.strategy.prepare g }

def askAll (s : Separator Extended) (queries : List Query) : Separator Extended :=
  queries.foldl ask s

theorem like_ask (s : Separator Extended) (query : Query) : (s.ask query).Like s := by
  cases query with
  | single values => exact s.like_single values
  | any values maxCuts => exact s.like_several values maxCuts _ _ _
  | mostViolated values maxCuts => exact s.like_several values maxCuts _ _ _
  | refresh values => exact ⟨resetWeights_refresh _ _, rfl⟩
  | addWeight u v value =>
      rw [ask]
      split
      case h_1 graph hadd =>
        obtain ⟨-, rfl⟩ := CutGraph.addWeight_ok hadd
        exact ⟨CutGraph.resetWeights_raise s.graph u v value, rfl⟩
      case h_2 => exact .refl s
  | resetWeights => exact ⟨CutGraph.resetWeights_resetWeights s.graph, rfl⟩
  | prepare g => exact ⟨rfl, rfl⟩

theorem like_askAll (s : Separator Extended) (queries : List Query) :
    (s.askAll queries).Like s := by
  induction queries generalizing s with
  | nil => exact .refl s
  | cons query rest ih => exact (ih (s.ask query)).trans (s.like_ask query)

theorem several_of_neg (s : Separator Extended) (values : EdgeValues Extended) {maxCuts : Int}
    (hneg : maxCuts < 0) {β : Type} (first : β) (visit : Nat → β → Cut Extended → ForInStep β)
    (chosen : β → List (Cut Extended)) :
    s.several values maxCuts first visit chosen = (.error (.negativeCutCount maxCuts), s) := by
  rw [several, if_pos hneg]

/-! ### Used and new separators -/

/-- After any queries, a refresh gives what it gives on a new working graph. It fails exactly when
the value of a foreign edge is above the precision, and when it succeeds, any set is crossed by the
sum of the values above the precision of the edges with one end in it. Cuts are separated as by a
new separator of the graph, with whatever method. A negative number of cuts is refused and nothing
changes. -/
theorem answers_as_new {g : Graph} (hg : g.WellFormed) (method method' : FlowMethod)
    (queries : List Query) :
    let s := (ofGraph g method).askAll queries
    let new : Separator Extended := ofGraph g method'
    (∀ values : EdgeValues Extended, s.graph.refresh values = new.graph.refresh values ∧
      (s.single values).1 = (new.single values).1 ∧
      ∀ maxCuts, (s.any values maxCuts).1 = (new.any values maxCuts).1 ∧
        (s.mostViolated values maxCuts).1 = (new.mostViolated values maxCuts).1) ∧
    (∀ values : EdgeValues Extended, values.Finite →
      ((∃ fault, (s.graph.refresh values).1 = .error fault) ↔
        ∃ entry ∈ values.entries, precision < entry.2 ∧ g.Foreign entry.1) ∧
      ((s.graph.refresh values).1 = .ok () → ∀ side : VertexSet,
        (s.graph.refresh values).2.cutWeight side = .finite (values.leaving g.kind side))) ∧
    ∀ (values : EdgeValues Extended) (maxCuts : Int), maxCuts < 0 →
      s.any values maxCuts = (.error (.negativeCutCount maxCuts), s) ∧
      s.mostViolated values maxCuts = (.error (.negativeCutCount maxCuts), s) := by
  intro s new
  have hsame : s.graph.resetWeights = new.graph.resetWeights :=
    ((ofGraph g method).like_askAll queries).1
  have hof : s.graph.IsOf g := hsame.trans (CutGraph.isOf_ofGraph g)
  refine ⟨fun values => ⟨refresh_congr hsame values, single_congr hsame values, fun maxCuts => ?_⟩,
    fun values hfinite => ⟨hof.refresh_eq_error_iff hg hfinite, fun hok side => ?_⟩,
    fun values maxCuts hneg => ?_⟩
  · exact ⟨several_congr hsame values maxCuts _ _ _, several_congr hsame values maxCuts _ _ _⟩
  · obtain ⟨hweighted, hcrossing⟩ := hof.refresh_crossing hg hfinite hok
    rw [CutGraph.cutWeight_eq hweighted, hcrossing]
    rfl
  · exact ⟨s.several_of_neg values hneg _ _ _, s.several_of_neg values hneg _ _ _⟩

/-- Two pairs of parallel and opposite arcs and a loop. The separator was left in the middle of a
refresh, with an infinite weight and prepared for a graph without vertices. -/
theorem answers_as_new_interrupted :
    let g := Graph.build .multiDirected []
      [(.int 1, .int 2, none), (.int 1, .int 2, none), (.int 2, .int 3, none),
        (.int 4, .int 3, none), (.int 3, .int 4, none), (.int 4, .int 4, none)]
    let values : EdgeValues Extended :=
      ⟨[([.int 2, .int 1, .int 0], .finite 1), ([.int 1, .int 2], .finite 1),
        ([.int 3, .int 2, .int 0], .finite (1 / 2)), ([.int 3, .int 4, .int 0], .finite (3 / 2)),
        ([.int 5, .int 5], .finite 7), ([.int 1, .int 4], .finite (-3))]⟩
    let broken : EdgeValues Extended :=
      ⟨[([.int 1, .int 2, .int 0], .finite 1), ([.int 1, .int 4, .int 0], .finite 1)]⟩
    let s := (ofGraph g .dinitz).askAll
      [.refresh broken, .addWeight (.int 2) (.int 3) .infinity, .prepare .empty]
    let pair : VertexSet := SortedSet.ofList [.int 2, .int 4]
    (s.graph.refresh values).1 = .ok () ∧
    (s.graph.refresh values).2.cutWeight pair = .finite 4 ∧
    (∃ fault, (s.graph.refresh broken).1 = .error fault) ∧
    (s.any values 2).1 = ((ofGraph g .pushRelabel).any values 2).1 ∧
    s.mostViolated values (-1) = (.error (.negativeCutCount (-1)), s) := by
  intro g values broken s pair
  have hg : g.WellFormed := Graph.wellFormed_build _ _ _
  have hvalues : values.Finite := by
    intro entry hentry
    simp only [values, List.mem_cons, List.not_mem_nil, or_false] at hentry
    rcases hentry with rfl | rfl | rfl | rfl | rfl | rfl <;> exact ⟨_, rfl⟩
  have hbroken : broken.Finite := by
    intro entry hentry
    simp only [broken, List.mem_cons, List.not_mem_nil, or_false] at hentry
    rcases hentry with rfl | rfl <;> exact ⟨_, rfl⟩
  obtain ⟨hnew, hrefresh, hneg⟩ := answers_as_new hg .dinitz .pushRelabel
    [.refresh broken, .addWeight (.int 2) (.int 3) .infinity, .prepare .empty]
  have hok : (s.graph.refresh values).1 = .ok () := by decide +kernel
  have hleaving : values.leaving g.kind pair = 4 := by decide +kernel
  have hforeign : g.Foreign [.int 1, .int 4, .int 0] := by
    refine .inr ⟨.int 1, .int 4, .inr ⟨rfl, .int 0, rfl⟩, by decide, ?_⟩
    unfold Graph.SamePair
    decide +kernel
  refine ⟨hok, ?_, ?_, ((hnew values).2.2 2).1, (hneg values (-1) (by decide)).2⟩
  · rw [← hleaving]
    exact (hrefresh values hvalues).2 hok pair
  · exact (hrefresh broken hbroken).1.mpr ⟨_, List.mem_cons_of_mem _ List.mem_cons_self,
      by norm_num, hforeign⟩

end Separator

end TourSearch
