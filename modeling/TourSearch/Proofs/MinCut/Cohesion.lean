import Mathlib

/-!
The cut of a phase. Vertices are added to a set one by one, every time one that is attached to the
set with the greatest weight. Then no cut that separates the last two vertices is lighter than the
one around the last vertex alone.

The argument carries a set `B` of vertices that were added before the last change of sides. All
vertices added since then lie on one side, and whatever is still outside is attached to `B` by no
more than what crosses inside the set.
-/

namespace TourSearch.MinCut

variable {V : Type} [DecidableEq V] {w : V → V → Rat} {side : V → Bool}

def attachment (w : V → V → Rat) (A : Finset V) (v : V) : Rat := ∑ a ∈ A, w a v

def crossingIn (w : V → V → Rat) (side : V → Bool) (A : Finset V) : Rat :=
  ∑ a ∈ A, ∑ b ∈ A, if side a = true ∧ side b = false then w a b else 0

/-- A new vertex adds the weight of its edges to the other side. -/
theorem crossingIn_insert (hsymm : ∀ a b, w a b = w b a) {A : Finset V} {x : V} (hx : x ∉ A) :
    crossingIn w side (insert x A) =
      crossingIn w side A + ∑ a ∈ A, if side a ≠ side x then w a x else 0 := by
  have hrows : ∀ a, (∑ b ∈ insert x A, if side a = true ∧ side b = false then w a b else 0) =
      (if side a = true ∧ side x = false then w a x else 0) +
        ∑ b ∈ A, if side a = true ∧ side b = false then w a b else 0 :=
    fun a => Finset.sum_insert hx
  unfold crossingIn
  rw [Finset.sum_insert hx]
  simp only [hrows]
  rw [Finset.sum_add_distrib, add_comm (∑ a ∈ A, _) (∑ a ∈ A, ∑ b ∈ A, _)]
  have hself : (if side x = true ∧ side x = false then w x x else 0) = 0 := by
    cases side x <;> simp
  rw [hself, zero_add, ← add_assoc, add_comm _ (∑ a ∈ A, ∑ b ∈ A, _), add_assoc,
    ← Finset.sum_add_distrib]
  congr 1
  apply Finset.sum_congr rfl
  intro a _
  rw [hsymm x a]
  cases side x <;> cases side a <;> simp

theorem crossingIn_le_insert (hsymm : ∀ a b, w a b = w b a) (hnonneg : ∀ a b, 0 ≤ w a b)
    {A : Finset V} {x : V} (hx : x ∉ A) :
    crossingIn w side A ≤ crossingIn w side (insert x A) := by
  rw [crossingIn_insert hsymm hx]
  have : 0 ≤ ∑ a ∈ A, if side a ≠ side x then w a x else 0 := by
    apply Finset.sum_nonneg
    intro a _
    split
    · exact hnonneg a x
    · exact Rat.le_refl
  linarith

/-- The state of a phase in which `last` was added last, seen from two sides. -/
def Cohesive (w : V → V → Rat) (side : V → Bool) (U A : Finset V) (last : V) : Prop :=
  ∃ B ⊆ A, (∀ a ∈ A, a ∉ B → side a = side last) ∧
    ∀ v ∈ U, v ∉ A → attachment w B v ≤ crossingIn w side A

omit [DecidableEq V] in
theorem cohesive_singleton (w : V → V → Rat) (side : V → Bool) (U : Finset V) (a : V) :
    Cohesive w side U {a} a := by
  refine ⟨∅, Finset.empty_subset _, fun b hb _ => by rw [Finset.mem_singleton.mp hb], ?_⟩
  intro v _ _
  have hself : ¬(side a = true ∧ side a = false) := by
    cases side a <;> simp
  simp [attachment, crossingIn, hself]

/-- A vertex on the other side of the last one is attached by no more than what crosses when it is
added. -/
theorem Cohesive.attachment_le {U A : Finset V} {last x : V} (h : Cohesive w side U A last)
    (hsymm : ∀ a b, w a b = w b a) (hnonneg : ∀ a b, 0 ≤ w a b) (hxU : x ∈ U) (hxA : x ∉ A)
    (hside : side x ≠ side last) : attachment w A x ≤ crossingIn w side (insert x A) := by
  obtain ⟨B, hBA, hlast, hB⟩ := h
  have hsplit : attachment w A x = attachment w (A \ B) x + attachment w B x :=
    (Finset.sum_sdiff hBA).symm
  -- The vertices added since the change of sides all face `x`.
  have hcross : attachment w (A \ B) x ≤ ∑ a ∈ A, if side a ≠ side x then w a x else 0 := by
    calc attachment w (A \ B) x
        = ∑ a ∈ A \ B, if side a ≠ side x then w a x else 0 := by
          apply Finset.sum_congr rfl
          intro a ha
          obtain ⟨haA, haB⟩ := Finset.mem_sdiff.mp ha
          rw [if_pos]
          rw [hlast a haA haB]
          exact hside.symm
      _ ≤ ∑ a ∈ A, if side a ≠ side x then w a x else 0 := by
          apply Finset.sum_le_sum_of_subset_of_nonneg Finset.sdiff_subset
          intro a _ _
          split
          · exact hnonneg a x
          · exact Rat.le_refl
  rw [hsplit, crossingIn_insert hsymm hxA]
  have := hB x hxU hxA
  linarith

/-- Adding a vertex with the greatest attachment keeps a phase cohesive. -/
theorem Cohesive.insert {U A : Finset V} {last x : V} (h : Cohesive w side U A last)
    (hsymm : ∀ a b, w a b = w b a) (hnonneg : ∀ a b, 0 ≤ w a b) (hxU : x ∈ U) (hxA : x ∉ A)
    (hgreatest : ∀ v ∈ U, v ∉ A → attachment w A v ≤ attachment w A x) :
    Cohesive w side U (insert x A) x := by
  by_cases hside : side x = side last
  · obtain ⟨B, hBA, hlast, hB⟩ := h
    refine ⟨B, hBA.trans (Finset.subset_insert x A), fun a ha haB => ?_, fun v hvU hvA => ?_⟩
    · rcases Finset.mem_insert.mp ha with rfl | ha
      · rfl
      · rw [hside]
        exact hlast a ha haB
    · have hvA' : v ∉ A := fun hv => hvA (Finset.mem_insert_of_mem hv)
      exact (hB v hvU hvA').trans (crossingIn_le_insert hsymm hnonneg hxA)
  · refine ⟨A, Finset.subset_insert x A, fun a ha haA => ?_, fun v hvU hvA => ?_⟩
    · rcases Finset.mem_insert.mp ha with rfl | ha
      · rfl
      · exact absurd ha haA
    · have hvA' : v ∉ A := fun hv => hvA (Finset.mem_insert_of_mem hv)
      exact (hgreatest v hvU hvA').trans (h.attachment_le hsymm hnonneg hxU hxA hside)

/-! ### Contraction -/

omit [DecidableEq V] in
theorem crossingIn_congr {w' : V → V → Rat} {side' : V → Bool} {A : Finset V}
    (hw : ∀ a ∈ A, ∀ b ∈ A, side a ≠ side b → w a b = w' a b)
    (hside : ∀ a ∈ A, side a = side' a) : crossingIn w side A = crossingIn w' side' A := by
  apply Finset.sum_congr rfl
  intro a ha
  apply Finset.sum_congr rfl
  intro b hb
  rw [← hside a ha, ← hside b hb]
  by_cases hab : side a = true ∧ side b = false
  · rw [if_pos hab, if_pos hab]
    exact hw a ha b hb (by rw [hab.1, hab.2]; simp)
  · rw [if_neg hab, if_neg hab]

/-- A cut that does not separate two vertices is as heavy after they are merged. -/
theorem crossingIn_contract {w' : V → V → Rat} (hsymm : ∀ a b, w a b = w b a)
    (hsymm' : ∀ a b, w' a b = w' b a) {U : Finset V} {u v : V} (hu : u ∈ U) (hv : v ∈ U)
    (huv : u ≠ v) (hmerged : ∀ a ∈ U, a ≠ u → a ≠ v → w' a u = w a u + w a v)
    (hother : ∀ a ∈ U, ∀ b ∈ U, a ≠ u → a ≠ v → b ≠ u → b ≠ v → w' a b = w a b)
    (hside : side u = side v) :
    crossingIn w' side (U.erase v) = crossingIn w side U := by
  generalize hR : (U.erase v).erase u = R
  have hmem : ∀ a ∈ R, a ∈ U ∧ a ≠ u ∧ a ≠ v := by
    intro a ha
    rw [← hR, Finset.mem_erase, Finset.mem_erase] at ha
    exact ⟨ha.2.2, ha.1, ha.2.1⟩
  have huR : u ∉ R := fun h => (hmem u h).2.1 rfl
  have hvR : v ∉ insert u R := by
    rw [Finset.mem_insert, not_or]
    exact ⟨huv.symm, fun h => (hmem v h).2.2 rfl⟩
  have hUv : U.erase v = insert u R := by
    rw [← hR, Finset.insert_erase (Finset.mem_erase.mpr ⟨huv, hu⟩)]
  have hU : U = insert v (insert u R) := by
    rw [← hUv, Finset.insert_erase hv]
  rw [hUv, hU, crossingIn_insert hsymm hvR, crossingIn_insert hsymm huR,
    crossingIn_insert hsymm' huR, Finset.sum_insert huR, if_neg (by simp [hside]), zero_add,
    add_assoc, ← Finset.sum_add_distrib]
  have hinner : crossingIn w' side R = crossingIn w side R := by
    apply crossingIn_congr _ fun _ _ => rfl
    intro a ha b hb _
    obtain ⟨haU, hau, hav⟩ := hmem a ha
    obtain ⟨hbU, hbu, hbv⟩ := hmem b hb
    exact hother a haU b hbU hau hav hbu hbv
  rw [hinner]
  congr 1
  apply Finset.sum_congr rfl
  intro a ha
  obtain ⟨haU, hau, hav⟩ := hmem a ha
  rw [hmerged a haU hau hav, hside]
  split <;> ring

end TourSearch.MinCut
