import TourSearch.Tour.Relaxation
import Mathlib

/-!
How a relaxation of tours is solved. The program that is handed to the method has the bounds in use
(`next?`), and the answer is what the method makes of it (`solveBy_eq`). Bounds that are not out of
date are those that the restrictions set (`UpToDate`).
-/

namespace TourSearch

namespace TourRelaxation

variable {α : Type} {r : TourRelaxation α}

/-- The bounds in use, if there are any, are those that the restrictions set. -/
def UpToDate (r : TourRelaxation α) : Prop := ∀ b ∈ r.bounds, b = r.currentBounds

theorem UpToDate.takeBounds_eq (h : r.UpToDate) : r.takeBounds.1 = r.currentBounds := by
  unfold takeBounds
  split
  · rename_i b hb
    exact h b hb
  · rfl

theorem upToDate_of_none (h : r.bounds = none) : r.UpToDate := by
  intro b hb
  rw [h] at hb
  cases hb

variable [Scalar α] {method : Linear.Program → Option (List Rat)}

/-- The linear program that is solved next, if all costs are finite. -/
def next? (r : TourRelaxation α) : Option Linear.Program := r.program? r.takeBounds.1

def answerTo (r : TourRelaxation α) (method : Linear.Program → Option (List Rat))
    (program? : Option Linear.Program) : Answer α :=
  match program? with
  | none => .infeasible
  | some program =>
      match method program with
      | none => .infeasible
      | some point => .solved (Scalar.ofRat (program.objective point)) (r.valuesOf point)

theorem solveBy_eq (method : Linear.Program → Option (List Rat)) (r : TourRelaxation α) :
    r.solveBy method = (r.answerTo method r.next?,
      { r with bounds := some r.takeBounds.1, solves := r.solves + 1 }) := by
  obtain ⟨tours, restrictions, cuts, bounds, solves⟩ := r
  cases bounds <;> rfl

theorem UpToDate.next?_eq (h : r.UpToDate) : r.next? = r.program? r.currentBounds := by
  rw [next?, h.takeBounds_eq]

theorem UpToDate.solveBy (h : r.UpToDate) (method : Linear.Program → Option (List Rat)) :
    (r.solveBy method).2.UpToDate := by
  rw [solveBy_eq]
  intro b hb
  exact (Option.mem_some_iff.mp hb).symm.trans h.takeBounds_eq

end TourRelaxation

end TourSearch
