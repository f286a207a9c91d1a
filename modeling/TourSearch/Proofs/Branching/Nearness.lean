import TourSearch.Proofs.Branching.Choice
import Mathlib

/-!
What counts as fractional. Of the values that are not negative, just those are that lie farther than
the tolerance from every whole number. The whole part of a negative value is the one above it, so
that its fraction is not positive; hence a negative value never counts as fractional, however far
from the whole numbers it lies (`integral_of_minus_one_half`).
-/

namespace TourSearch

open Numeric

def NearWhole (tolerance : Rat) (value : Extended) : Prop :=
  ∃ k : Int, |value.toRat - k| ≤ tolerance

/-- It suffices to look at the closest whole number. -/
instance (tolerance : Rat) (value : Extended) : Decidable (NearWhole tolerance value) :=
  decidable_of_iff (|value.toRat - round value.toRat| ≤ tolerance)
    ⟨fun h => ⟨_, h⟩, fun ⟨k, hk⟩ => (round_le value.toRat k).trans hk⟩

theorem behind_of_neg {x : Rat} (hneg : x < 0) : behind (.finite x) = x + ⌊-x⌋ := by
  simp only [behind, fraction_of_neg hneg]

theorem behind_of_nonneg {x : Rat} (hx : 0 ≤ x) : behind (.finite x) = Int.fract x := by
  simp only [behind, fraction_of_nonneg hx]

/-- The whole numbers closest to a value are those next to it. -/
theorem not_near_iff (tolerance x : Rat) :
    (¬∃ k : Int, |x - k| ≤ tolerance) ↔ tolerance < Int.fract x ∧ Int.fract x < 1 - tolerance := by
  have hsplit := Int.self_sub_floor x
  constructor
  · intro hfar
    rw [not_exists] at hfar
    have hbelow := hfar ⌊x⌋
    have habove := hfar (⌊x⌋ + 1)
    have hfract := Int.fract_lt_one x
    rw [hsplit, Int.abs_fract, not_le] at hbelow
    push_cast at habove
    rw [show x - (⌊x⌋ + 1) = -(1 - Int.fract x) by linarith, abs_neg,
      abs_of_pos (by linarith), not_le] at habove
    exact ⟨hbelow, by linarith⟩
  · rintro ⟨hlow, hhigh⟩ ⟨k, hk⟩
    obtain ⟨hk₁, hk₂⟩ := abs_le.mp hk
    rcases le_or_gt k ⌊x⌋ with hle | hgt
    · have hcast : (k : Rat) ≤ ⌊x⌋ := by exact_mod_cast hle
      linarith
    · have hcast : (⌊x⌋ : Rat) + 1 ≤ k := by exact_mod_cast hgt
      linarith

/-- A value counts as fractional when it is not negative and lies far from the whole numbers. -/
theorem interior_iff {tolerance : Rat} (htolerance : 0 ≤ tolerance) (x : Rat) :
    Interior (.finite tolerance) (.finite x) ↔ 0 ≤ x ∧ ¬NearWhole tolerance (.finite x) := by
  rw [Interior, Extended.scalar_one, Extended.finite_sub_finite, Extended.finite_lt_finite,
    Extended.finite_lt_finite, NearWhole, Extended.toRat_finite, not_near_iff]
  rcases lt_or_ge x 0 with hneg | hx
  · have hfloor := Int.floor_le (-x)
    rw [behind_of_neg hneg]
    constructor
    · rintro ⟨hlow, -⟩
      linarith
    · exact fun h => absurd h.1 (not_le.mpr hneg)
  · rw [behind_of_nonneg hx]
    exact (and_iff_right hx).symm

namespace EdgeBranching

variable {b : EdgeBranching Extended} {id : Nat}

theorem filterMap_proposal (entries : List (Edge × Extended)) :
    entries.filterMap (b.proposal id) =
      (entries.filter fun entry => Interior b.tolerance entry.2).map (candidateOf id) := by
  induction entries with
  | nil => rfl
  | cons entry rest ih =>
      rw [List.filterMap_cons, List.filter_cons, ih]
      by_cases hinterior : Interior b.tolerance entry.2
      · simp [proposal, hinterior]
      · simp [proposal, hinterior]

/-- Nothing is cut off when as many candidates are allowed as there are values. -/
theorem perm_candidates (id : Nat) (hnumber : b.tolerance ≠ .undefined)
    {values : EdgeValues Extended} (hfinite : values.Finite)
    (hcount : (values.size : Int) ≤ b.maxCandidates) :
    ∃ cs, b.candidates id values = .ok cs ∧
      cs.Perm ((values.entries.filter fun entry => Interior b.tolerance entry.2).map
        (candidateOf id)) := by
  refine ⟨_, candidates_eq hnumber hfinite, ?_⟩
  have hlength : (values.entries.filterMap (b.proposal id)).length ≤ b.maxCandidates.toNat := by
    have hle := List.length_filterMap_le (b.proposal id) values.entries
    rw [Mapping.size] at hcount
    omega
  rw [leading, if_neg (by omega), List.take_of_length_le (by rwa [List.length_mergeSort]),
    ← filterMap_proposal]
  exact List.mergeSort_perm _ _

end EdgeBranching

/-- Finite values count as integral when every one that is not negative lies within the tolerance of
some whole number; and when there is room for all of them, the candidates of edge branching are the
edges whose values are not negative and lie farther than the tolerance from every whole number. For
values that are not negative, integrality therefore means closeness to a whole number. -/
theorem integrality_means_nearness {b : EdgeBranching Extended} {tolerance : Rat}
    (hb : b.tolerance = .finite tolerance) (htolerance : 0 ≤ tolerance) (id : Nat)
    {values : EdgeValues Extended} (hfinite : values.Finite)
    (hcount : (values.size : Int) ≤ b.maxCandidates) :
    (∃ integral, values.isIntegral b.tolerance = .ok integral ∧
      (integral = true ↔ ∀ entry ∈ values.entries, 0 ≤ entry.2.toRat →
        NearWhole tolerance entry.2)) ∧
    ∃ cs, b.candidates id values = .ok cs ∧
      cs.Perm ((values.entries.filter fun entry =>
        0 ≤ entry.2.toRat ∧ ¬NearWhole tolerance entry.2).map (EdgeBranching.candidateOf id)) := by
  have hinterior : ∀ entry ∈ values.entries, (Interior b.tolerance entry.2 ↔
      0 ≤ entry.2.toRat ∧ ¬NearWhole tolerance entry.2) := by
    intro entry hentry
    obtain ⟨x, hx⟩ := hfinite entry hentry
    rw [hb, hx, interior_iff htolerance, Extended.toRat_finite]
  refine ⟨⟨_, integralEntries_eq hfinite, ?_⟩, ?_⟩
  · rw [List.all_eq_true]
    refine forall₂_congr fun entry hentry => ?_
    rw [Bool.not_eq_true', decide_eq_false_iff_not, hinterior entry hentry, not_and, not_not]
  · obtain ⟨cs, hcs, hperm⟩ :=
      EdgeBranching.perm_candidates id (by simp [hb]) hfinite hcount
    refine ⟨cs, hcs, ?_⟩
    rwa [List.filter_congr fun entry hentry => decide_eq_decide.mpr (hinterior entry hentry)]
      at hperm

def mixedValues : EdgeValues Extended :=
  ⟨[([.int 0, .int 1], .finite (9 / 8)), ([.int 1, .int 2], .finite (7 / 8)),
    ([.int 0, .int 2], .finite (3 / 2)), ([.int 2, .int 3], .finite (-1 / 2))]⟩

/-- Of the mixed values only the one in between is branched on. -/
theorem integrality_means_nearness_mixed :
    mixedValues.isIntegral (.finite (1 / 4)) = .ok false ∧
      ∃ cs, (⟨.finite (1 / 4), 4⟩ : EdgeBranching Extended).candidates 0 mixedValues = .ok cs ∧
        cs.Perm [EdgeBranching.candidateOf 0 ([.int 0, .int 2], .finite (3 / 2))] := by
  have hfinite : mixedValues.Finite := by
    simp [EdgeValues.Finite, mixedValues]
  obtain ⟨⟨integral, hintegral, hiff⟩, hcandidates⟩ :=
    integrality_means_nearness (b := ⟨.finite (1 / 4), 4⟩) rfl (by norm_num) 0 hfinite (by decide)
  refine ⟨?_, ?_⟩
  · rw [hintegral, Except.ok.injEq, ← Bool.not_eq_true, hiff]
    decide +kernel
  · rwa [show mixedValues.entries.filter (fun entry => 0 ≤ entry.2.toRat ∧
        ¬NearWhole (1 / 4) entry.2) = [([.int 0, .int 2], .finite (3 / 2))] by decide +kernel]
      at hcandidates

def minusOneHalf : EdgeValues Extended := ⟨[([.int 0, .int 1], .finite (-1 / 2))]⟩

/-- Minus one half counts as integral and is not branched on, although every whole number is at
least one half away. -/
theorem integral_of_minus_one_half :
    minusOneHalf.isIntegral (.finite (1 / 4)) = .ok true ∧
      (⟨.finite (1 / 4), 1⟩ : EdgeBranching Extended).candidates 0 minusOneHalf = .ok [] ∧
      ¬∀ entry ∈ minusOneHalf.entries, NearWhole (1 / 4) entry.2 := by
  refine ⟨by decide +kernel, ?_, by decide +kernel⟩
  have hfinite : minusOneHalf.Finite := by
    simp [EdgeValues.Finite, minusOneHalf]
  obtain ⟨cs, hcs, hperm⟩ := EdgeBranching.perm_candidates (b := ⟨.finite (1 / 4), 1⟩) 0
    (by simp) hfinite (by decide)
  rw [show minusOneHalf.entries.filter (fun entry => Interior (.finite (1 / 4)) entry.2) = [] by
    decide +kernel] at hperm
  exact hcs.trans (congrArg _ hperm.eq_nil)

end TourSearch
