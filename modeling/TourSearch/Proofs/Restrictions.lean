import TourSearch.Restrictions
import Mathlib

/-!
Moves on restrictions. A move is applied only to an edge that is free, so taking it back restores
the restrictions exactly.
-/

namespace TourSearch

namespace SortedSet

variable {α : Type} [Precedence α] [DecidableEq α]

/-- A new member that is taken out again leaves the set as it was. -/
theorem erase_insert {s : SortedSet α} {a : α} (h : a ∉ s) : (s.insert a).erase a = s := by
  apply ext_mem
  intro b
  rw [mem_erase, mem_insert]
  constructor
  · rintro ⟨rfl | hb, hne⟩
    · exact absurd rfl hne
    · exact hb
  · intro hb
    exact ⟨Or.inr hb, fun hba => h (hba ▸ hb)⟩

end SortedSet

namespace Restrictions

/-- Whether a set of edges uses every fixed edge and no forbidden one. -/
def Allows (r : Restrictions) (edges : Set VertexSet) : Prop :=
  (∀ k ∈ r.fixed, k ∈ edges) ∧ ∀ k ∈ r.forbidden, k ∉ edges

theorem allows_empty (edges : Set VertexSet) : empty.Allows edges :=
  ⟨fun _ hk => absurd hk List.not_mem_nil, fun _ hk => absurd hk List.not_mem_nil⟩

end Restrictions

def Fault.IsConflict : Fault → Prop
  | .alreadyRestricted _ | .notFixed _ | .notForbidden _ => True
  | _ => False

namespace Move

theorem isConflict_of_act {a : Act} {m : Move} {r : Restrictions} {fault : Fault}
    (hact : act a m r = .error fault) : fault.IsConflict := by
  cases a <;> cases m <;>
    simp only [act, Restrictions.fix, Restrictions.unfix, Restrictions.forbid,
      Restrictions.unforbid] at hact <;> split at hact <;> cases hact <;> exact trivial

/-- Whether a set of edges obeys a move. -/
def Obeyed (m : Move) (edges : Set VertexSet) : Prop :=
  match m with
  | .fix e => e.key ∈ edges
  | .remove e => e.key ∉ edges

def restrict (m : Move) (r : Restrictions) : Restrictions :=
  match m with
  | .fix e => { r with fixed := r.fixed.insert e.key }
  | .remove e => { r with forbidden := r.forbidden.insert e.key }

theorem act_apply_eq_ok {m : Move} {r r' : Restrictions} :
    act .apply m r = .ok r' ↔
      m.edge.key ∉ r.fixed ∧ m.edge.key ∉ r.forbidden ∧ r' = m.restrict r := by
  cases m with
  | fix e =>
      by_cases hfree : e.key ∈ r.fixed ∨ e.key ∈ r.forbidden
      · simp [act, Restrictions.fix, Restrictions.isRestricted, Restrictions.isFixed,
          Restrictions.isForbidden, edge, hfree]
        tauto
      · simp [act, Restrictions.fix, Restrictions.isRestricted, Restrictions.isFixed,
          Restrictions.isForbidden, edge, restrict, hfree]
        tauto
  | remove e =>
      by_cases hfree : e.key ∈ r.fixed ∨ e.key ∈ r.forbidden
      · simp [act, Restrictions.forbid, Restrictions.isRestricted, Restrictions.isFixed,
          Restrictions.isForbidden, edge, hfree]
        tauto
      · simp [act, Restrictions.forbid, Restrictions.isRestricted, Restrictions.isFixed,
          Restrictions.isForbidden, edge, restrict, hfree]
        tauto

/-- Taking back an applied move restores the restrictions. -/
theorem act_revert_of_apply {m : Move} {r r' : Restrictions} (h : act .apply m r = .ok r') :
    act .revert m r' = .ok r := by
  obtain ⟨hfixed, hforbidden, rfl⟩ := act_apply_eq_ok.mp h
  cases m with
  | fix e =>
      simp only [edge] at hfixed
      simp [act, restrict, Restrictions.unfix, Restrictions.isFixed, SortedSet.erase_insert hfixed]
  | remove e =>
      simp only [edge] at hforbidden
      simp [act, restrict, Restrictions.unforbid, Restrictions.isForbidden,
        SortedSet.erase_insert hforbidden]

/-- A set of edges that obeys a move and keeps to the restrictions keeps to those after the move. -/
theorem Obeyed.allows {m : Move} {r r' : Restrictions} {edges : Set VertexSet}
    (h : act .apply m r = .ok r') (hm : m.Obeyed edges) (hr : r.Allows edges) :
    r'.Allows edges := by
  obtain ⟨-, -, rfl⟩ := act_apply_eq_ok.mp h
  cases m with
  | fix e =>
      refine ⟨fun k hk => ?_, hr.2⟩
      rcases SortedSet.mem_insert.mp hk with rfl | hk
      · exact hm
      · exact hr.1 k hk
  | remove e =>
      refine ⟨hr.1, fun k hk => ?_⟩
      rcases SortedSet.mem_insert.mp hk with rfl | hk
      · exact hm
      · exact hr.2 k hk

end Move

end TourSearch
