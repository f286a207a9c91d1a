import TourSearch.Proofs.Tour.Validity
import Mathlib

/-!
The cuts that a relaxation stores. A set of cities and its complement give the same row of the
linear program, and a relaxation stores no row twice, within one call or over several
(`stored_rows_differ`). What a call returns is the number of cuts that are new, so that it returns 0
just when there is nothing new in it.
-/

namespace TourSearch

open Numeric

namespace TourRelaxation

variable {t : Instance Extended} {r r' : TourRelaxation Extended} {all : VertexSet}
  {cuts stored : List (Cut Extended)} {cut : Cut Extended}

/-! ### Rows -/

/-- Two sets of vertices give the same row: they are equal or complementary. -/
def SameRow (all side other : VertexSet) : Prop := other = side ∨ other = all.diff side

theorem diff_diff {side : VertexSet} (hside : ∀ v ∈ side, v ∈ all) :
    all.diff (all.diff side) = side := by
  refine SortedSet.ext_mem fun v => ?_
  rw [SortedSet.mem_diff, SortedSet.mem_diff]
  constructor
  · rintro ⟨hv, hnot⟩
    by_contra hout
    exact hnot ⟨hv, hout⟩
  · exact fun hv => ⟨hside v hv, fun hout => hout.2 hv⟩

theorem SameRow.symm {side other : VertexSet} (h : SameRow all side other)
    (hside : ∀ v ∈ side, v ∈ all) : SameRow all other side := by
  rcases h with rfl | rfl
  · exact Or.inl rfl
  · exact Or.inr (diff_diff hside).symm

theorem describes_iff {side : VertexSet} :
    describes all stored side = true ↔ ∃ c ∈ stored, SameRow all c.side side := by
  rw [describes, List.any_eq_true]
  refine exists_congr fun c => and_congr_right fun _ => ?_
  rw [Bool.or_eq_true, beq_iff_eq, beq_iff_eq, SameRow, eq_comm, eq_comm (a := all.diff c.side)]

/-! ### Storing cuts -/

/-- Stored cuts lie within the vertices and give different rows. -/
structure Apart (all : VertexSet) (stored : List (Cut Extended)) : Prop where
  within : ∀ c ∈ stored, ∀ v ∈ c.side, v ∈ all
  differ : stored.Pairwise fun c d => ¬SameRow all c.side d.side

theorem store_rows (all : VertexSet) (stored : List (Cut Extended)) (cut : Cut Extended) :
    (store all stored cut = stored ∧ ∃ c ∈ stored, SameRow all c.side cut.side) ∨
      (store all stored cut = stored ++ [cut] ∧ ∀ c ∈ stored, ¬SameRow all c.side cut.side) := by
  rcases store_cases all stored cut with ⟨hdescribed, hsame⟩ | ⟨hnew, happended⟩
  · exact Or.inl ⟨hsame, describes_iff.mp hdescribed⟩
  · refine Or.inr ⟨happended, fun c hc hrow => ?_⟩
    rw [describes_iff.mpr ⟨c, hc, hrow⟩] at hnew
    cases hnew

theorem Apart.store (hstored : Apart all stored) (hcut : ∀ v ∈ cut.side, v ∈ all) :
    Apart all (store all stored cut) := by
  rcases store_rows all stored cut with ⟨hsame, -⟩ | ⟨hnew, hdiffer⟩
  · rw [hsame]
    exact hstored
  · rw [hnew]
    refine ⟨fun c hc => ?_, List.pairwise_append.mpr
      ⟨hstored.differ, List.pairwise_singleton _ _, fun c hc d hd => ?_⟩⟩
    · rcases List.mem_append.mp hc with hold | hlast
      · exact hstored.within c hold
      · rw [List.mem_singleton.mp hlast]
        exact hcut
    · rw [List.mem_singleton.mp hd]
      exact hdiffer c hc

theorem Apart.foldl_store (hstored : Apart all stored)
    (hcuts : ∀ cut ∈ cuts, ∀ v ∈ cut.side, v ∈ all) :
    Apart all (cuts.foldl (TourRelaxation.store all) stored) :=
  List.foldlRecOn cuts (TourRelaxation.store all) hstored
    fun _ hbefore cut hcut => hbefore.store (hcuts cut hcut)

/-- Every given cut has a row afterwards. -/
theorem exists_row_of_foldl_store (hcut : cut ∈ cuts) :
    ∃ c ∈ cuts.foldl (store all) stored, SameRow all c.side cut.side := by
  induction cuts generalizing stored with
  | nil => cases hcut
  | cons first cuts ih =>
      rcases List.mem_cons.mp hcut with rfl | hrest
      · obtain ⟨c, hc, hsame⟩ : ∃ c ∈ store all stored cut, SameRow all c.side cut.side := by
          rcases store_rows all stored cut with ⟨hstore, hrow⟩ | ⟨hstore, -⟩
          · rwa [hstore]
          · exact ⟨cut, by simp [hstore], Or.inl rfl⟩
        obtain ⟨added, hadded, -⟩ := foldl_store all cuts (store all stored cut)
        exact ⟨c, by rw [List.foldl_cons, hadded]; exact List.mem_append_left _ hc, hsame⟩
      · exact ih hrest

/-- Nothing is stored when every cut has a row. -/
theorem foldl_store_of_rows (hrows : ∀ cut ∈ cuts, ∃ c ∈ stored, SameRow all c.side cut.side) :
    cuts.foldl (store all) stored = stored := by
  induction cuts with
  | nil => rfl
  | cons cut cuts ih =>
      rw [List.forall_mem_cons] at hrows
      rcases store_rows all stored cut with ⟨hsame, -⟩ | ⟨-, hdiffer⟩
      · rw [List.foldl_cons, hsame]
        exact ih hrows.2
      · obtain ⟨c, hc, hsame⟩ := hrows.1
        exact absurd hsame (hdiffer c hc)

/-! ### Calls -/

/-- The relaxations of an instance to which only cuts of its cities have been added, in any number
of calls. Whatever else is done to them leaves their cuts alone. -/
inductive Pooled (t : Instance Extended) : TourRelaxation Extended → Prop where
  | start (restrictions : Restrictions) : Pooled t (ofInstance t restrictions)
  | addCuts {r : TourRelaxation Extended} {cuts : List (Cut Extended)} (before : Pooled t r)
      (within : ∀ cut ∈ cuts, ∀ v ∈ cut.side, v ∈ r.allCities) : Pooled t (r.addCuts cuts).2
  | other {r r' : TourRelaxation Extended} (before : Pooled t r) (tours : r'.tours = r.tours)
      (cuts : r'.cuts = r.cuts) : Pooled t r'

theorem Pooled.solveBy (hr : Pooled t r) (method : Linear.Program → Option (List Rat)) :
    Pooled t (r.solveBy method).2 := by
  refine hr.other ?_ ?_ <;> simp only [TourRelaxation.solveBy, takeBounds] <;> split <;> rfl

theorem Pooled.apart (hr : Pooled t r) : Apart r.allCities r.cuts := by
  induction hr with
  | start => exact ⟨nofun, .nil⟩
  | addCuts _ within ih => exact ih.foldl_store within
  | other _ tours cuts ih =>
      rw [allCities, tours, cuts]
      exact ih

/-- A relaxation stores no row twice: of all stored cuts no two have equal or complementary sets. A
further call keeps the stored cuts in front, adds some of the given ones in their order and returns
how many. Every given set or its complement is stored then, and 0 is returned just when all of them
were stored before. -/
theorem stored_rows_differ (hr : Pooled t r) :
    (r.cuts.Pairwise fun c d =>
      ¬SameRow r.allCities c.side d.side ∧ ¬SameRow r.allCities d.side c.side) ∧
    ∀ cuts : List (Cut Extended), (∀ cut ∈ cuts, ∀ v ∈ cut.side, v ∈ r.allCities) →
      ∃ added, (r.addCuts cuts).2.cuts = r.cuts ++ added ∧ added.Sublist cuts ∧
        (r.addCuts cuts).1 = added.length ∧
        (∀ cut ∈ cuts, ∃ c ∈ (r.addCuts cuts).2.cuts, SameRow r.allCities cut.side c.side) ∧
        ((r.addCuts cuts).1 = 0 ↔
          ∀ cut ∈ cuts, ∃ c ∈ r.cuts, SameRow r.allCities cut.side c.side) := by
  have hapart := hr.apart
  refine ⟨?_, fun cuts hcuts => ?_⟩
  · refine hapart.differ.imp_of_mem fun hc hd hdiffer => ⟨hdiffer, fun hsame => ?_⟩
    exact hdiffer (hsame.symm (hapart.within _ hd))
  · obtain ⟨added, hadded, hsub⟩ := foldl_store r.allCities cuts r.cuts
    have hcount : (r.addCuts cuts).1 = added.length := by
      rw [addCuts_eq, hadded, List.length_append, Nat.add_sub_cancel_left]
    have hrows : ∀ cut ∈ cuts, ∃ c ∈ (r.addCuts cuts).2.cuts,
        SameRow r.allCities cut.side c.side := by
      intro cut hcut
      obtain ⟨c, hc, hsame⟩ : ∃ c ∈ (r.addCuts cuts).2.cuts, SameRow r.allCities c.side cut.side :=
        exists_row_of_foldl_store hcut
      exact ⟨c, hc, hsame.symm ((hapart.foldl_store hcuts).within c hc)⟩
    refine ⟨added, hadded, hsub, hcount, hrows, ?_⟩
    rw [hcount, List.length_eq_zero_iff]
    constructor
    · rintro rfl
      rw [addCuts_eq, hadded, List.append_nil] at hrows
      exact hrows
    · intro hbefore
      have hnone := foldl_store_of_rows fun cut hcut => by
        obtain ⟨c, hc, hsame⟩ := hbefore cut hcut
        exact ⟨c, hc, hsame.symm (hcuts cut hcut)⟩
      exact List.append_cancel_left (hadded.symm.trans (hnone.trans (List.append_nil _).symm))

def fourAlike : Instance Extended := ⟨List.replicate 4 (List.replicate 4 (.finite 1)), "alike"⟩

/-- One row, given three times. -/
def oneRowThrice : List (Cut Extended) :=
  [⟨.ofList [.int 0, .int 3], .finite 0, by decide⟩,
    ⟨.ofList [.int 3, .int 0], .finite 1, by decide⟩,
    ⟨.ofList [.int 1, .int 2], .finite 0, by decide⟩]

/-- A relaxation that was given this row and then solved. -/
def oneRow : TourRelaxation Extended :=
  (((ofInstance fourAlike Restrictions.empty).addCuts oneRowThrice).2.solveBy fun _ => none).2

/-- The row that is there, a new one with its complement, and the set of all cities. -/
def moreCuts : List (Cut Extended) :=
  [⟨.ofList [.int 2, .int 1], .finite 0, by decide⟩,
    ⟨.ofList [.int 0, .int 2], .finite 0, by decide⟩,
    ⟨.ofList [.int 1, .int 3], .finite 0, by decide⟩,
    ⟨.ofList [.int 0, .int 1, .int 2, .int 3], .finite 0, by decide⟩]

/-- Of these, two are stored; and after that the call changes nothing. -/
theorem stored_rows_differ_square :
    oneRow.cuts.map (·.side) = [.ofList [.int 0, .int 3]] ∧
    (∃ added, (oneRow.addCuts moreCuts).2.cuts = oneRow.cuts ++ added ∧ added.Sublist moreCuts ∧
      added.map (·.side) = [.ofList [.int 0, .int 2], .ofList [.int 0, .int 1, .int 2, .int 3]]) ∧
    (oneRow.addCuts moreCuts).1 = 2 ∧
    ((oneRow.addCuts moreCuts).2.addCuts moreCuts).1 = 0 := by
  have hfirst : ∀ cut ∈ oneRowThrice, ∀ v ∈ cut.side.members,
      v ∈ (ofInstance fourAlike Restrictions.empty).allCities := by
    decide +kernel
  have hwithin : ∀ cut ∈ moreCuts, ∀ v ∈ cut.side.members, v ∈ oneRow.allCities := by
    decide +kernel
  have hpooled : Pooled fourAlike oneRow :=
    ((Pooled.start Restrictions.empty).addCuts hfirst).solveBy _
  obtain ⟨added, hadded, hsub, hcount, hrows, -⟩ := (stored_rows_differ hpooled).2 moreCuts hwithin
  obtain ⟨-, -, -, -, -, hnone⟩ :=
    (stored_rows_differ (hpooled.addCuts hwithin)).2 moreCuts hwithin
  have hsides : (oneRow.addCuts moreCuts).2.cuts.map (·.side) = oneRow.cuts.map (·.side) ++
      [.ofList [.int 0, .int 2], .ofList [.int 0, .int 1, .int 2, .int 3]] := by
    decide +kernel
  rw [hadded, List.map_append] at hsides
  have hnew := List.append_cancel_left hsides
  refine ⟨by decide +kernel, ⟨added, hadded, hsub, hnew⟩, ?_, hnone.mpr hrows⟩
  rw [hcount, ← List.length_map (f := fun cut : Cut Extended => cut.side), hnew]
  rfl

end TourRelaxation

end TourSearch
