import TourSearch.Proofs.Separation.Scan
import Mathlib

/-!
Separation with a limit, said without one. A scan of all sinks finds a list of cuts, some of them
several times. The limited modes return the beginning of this list without its repetitions, as it
stands or in the stable order by value (`several_truncate`). The shortlist that finds the most
violated cuts forgets what it drops; still no cut that was dropped is listed again.
-/

namespace TourSearch

open Numeric

namespace Shortlist

/-- While cuts are entered, no set is listed twice, and the set of a cut that was found and is not
listed does not come back. -/
structure NoReturn (limit : Nat) (cuts : List (Cut Extended)) : Prop where
  nodup : ∀ n, (after limit (cuts.take n)).sides.Nodup
  gone : ∀ m n, m ≤ n → ∀ cut ∈ cuts.take m, cut.side ∉ (after limit (cuts.take m)).sides →
    cut.side ∉ (after limit (cuts.take n)).sides

theorem noReturn {w : VertexSet → Rat} {limit : Nat} {cuts : List (Cut Extended)}
    (hvalued : Separator.Valued w cuts) (hlimit : 0 < limit) : NoReturn limit cuts := by
  have htake : ∀ n, Separator.Valued w (cuts.take n) :=
    fun n => hvalued.mono (List.take_subset n cuts)
  refine ⟨fun n => nodup_sides_after (htake n) hlimit, fun m n hmn cut hcut hgone => ?_⟩
  obtain ⟨later, hlater⟩ := List.take_prefix_take_left (l := cuts) hmn
  rw [← hlater]
  exact notMem_sides_after (hlater ▸ htake n) hlimit (List.mem_map_of_mem hcut) hgone

end Shortlist

namespace Separator

/-- Both limited modes, for any graph and any finite values that its working graph accepts. With the
cuts that a scan of all sinks finds, the first mode returns the first `maxCuts` different ones, and
the second mode the first `maxCuts` of the different ones in the stable order by value. The
shortlist on which the second mode keeps its cuts has no set twice, and takes none back that it has
dropped. -/
theorem several_truncate (kind : GraphKind) (vs : List Vertex)
    (edges : List (Vertex × Vertex × Option Vertex)) (s : Separator Extended)
    (hs : s.graph.IsOf (Graph.build kind vs edges)) (values : EdgeValues Extended)
    (hfinite : values.Finite) (hok : (s.graph.refresh values).1 = .ok ()) (maxCuts : Int)
    (hpos : 1 ≤ maxCuts) :
    ∃ found, (s.scan values [] fun found cut => .yield (found ++ [cut])).1 = .ok found ∧
      (s.any values maxCuts).1 = .ok ((distinct found).take maxCuts.toNat) ∧
      (s.mostViolated values maxCuts).1 =
        .ok (((distinct found).mergeSort fun c d => decide (c.value ≤ d.value)).take
          maxCuts.toNat) ∧
      (s.scan values Shortlist.empty fun l cut => .yield (l.enter maxCuts.toNat cut)).1 =
        .ok (Shortlist.after maxCuts.toNat found) ∧
      Shortlist.NoReturn maxCuts.toNat found := by
  obtain ⟨found, hvalued, -, hscan, hany, hmost⟩ :=
    several_spec (Graph.wellFormed_build kind vs edges) hs hfinite hok hpos
  have hlimit : 0 < maxCuts.toNat := by omega
  refine ⟨found, ?_, hany, ?_, hscan _ _, Shortlist.noReturn hvalued hlimit⟩
  · rw [hscan]
    simp [← List.flatMap_def]
  · rw [hmost, ranked_eq_mergeSort (hvalued.mono fun _ => mem_of_mem_distinct)]

/-- A star whose centre is the second vertex. The cut that the first sink finds is dropped for that
of the second one, and found again by the third. -/
theorem several_truncate_star :
    let edges : List (Vertex × Vertex × Option Vertex) :=
      [(.int 0, .int 1, none), (.int 1, .int 2, none), (.int 1, .int 3, none)]
    let values : EdgeValues Extended :=
      ⟨[([.int 0, .int 1], .finite 1), ([.int 1, .int 2], .finite (1 / 2)),
        ([.int 1, .int 3], .finite (3 / 2))]⟩
    let s : Separator Extended := ofGraph (Graph.build .simple [] edges) .edmondsKarp
    let alone : VertexSet := SortedSet.ofList [.int 0]
    let others : VertexSet := SortedSet.ofList [.int 0, .int 1, .int 3]
    values.Finite ∧ (s.graph.refresh values).1 = .ok () ∧
      ∃ found, (s.scan values [] fun found cut => .yield (found ++ [cut])).1 = .ok found ∧
        found.map (·.side) = [alone, others, alone] ∧
        (s.any values 1).1 = .ok ((distinct found).take 1) ∧
        (s.mostViolated values 1).1 =
          .ok (((distinct found).mergeSort fun c d => decide (c.value ≤ d.value)).take 1) ∧
        (s.mostViolated values 1).1.toOption.map (·.map (·.side)) = some [others] ∧
        (Shortlist.after 1 (found.take 2)).sides = [others] ∧
        alone ∉ (Shortlist.after 1 (found.take 3)).sides := by
  intro edges values s alone others
  have hfinite : values.Finite := by
    intro entry hentry
    simp only [values, List.mem_cons, List.not_mem_nil, or_false] at hentry
    rcases hentry with rfl | rfl | rfl <;> exact ⟨_, rfl⟩
  have hok : (s.graph.refresh values).1 = .ok () := by decide +kernel
  obtain ⟨found, hscan, hany, hmost, -, hnone⟩ :=
    several_truncate .simple [] edges s (CutGraph.isOf_ofGraph _) values hfinite hok 1 (by decide)
  have hsides : found.map (·.side) = [alone, others, alone] := by
    have hmap : (s.scan values [] fun found cut => .yield (found ++ [cut])).1.toOption.map
        (·.map (·.side)) = some [alone, others, alone] := by decide +kernel
    rw [hscan] at hmap
    exact Option.some.inj hmap
  have htwo : (Shortlist.after 1 (found.take 2)).sides = [others] := by
    have hmap : (s.scan values [] fun found cut => .yield (found ++ [cut])).1.toOption.map
        (fun found => (Shortlist.after 1 (found.take 2)).sides) = some [others] := by
      decide +kernel
    rw [hscan] at hmap
    exact Option.some.inj hmap
  refine ⟨hfinite, hok, found, hscan, hsides, hany, hmost, by decide +kernel, htwo, ?_⟩
  obtain ⟨first, rest, rfl⟩ : ∃ first rest, found = first :: rest := by
    cases found with
    | nil => cases hsides
    | cons first rest => exact ⟨first, rest, rfl⟩
  have hfirst : first.side = alone := (List.cons.inj hsides).1
  rw [← hfirst]
  refine hnone.gone 2 3 (by decide) first (by simp) ?_
  rw [show (1 : Int).toNat = 1 from rfl, htwo, hfirst]
  decide

end Separator

end TourSearch
