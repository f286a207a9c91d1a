import Mathlib

/-!
Vertices of polytopes. A polytope is given by half-spaces with whole coefficients. From every point
of it one gets to a vertex without paying more, by going on until another plane is met
(`exists_vertex_le`); there are finitely many vertices, so one of them is cheapest
(`exists_least_vertex`). A vertex lies on so many independent planes that Cramer's rule gives its
coordinates, and Hadamard's inequality bounds their denominator. With short normals, coordinates
that are almost whole are therefore whole (`IsVertex.whole`).
-/

namespace TourSearch.Linear

open Matrix

structure HalfSpace (m : Nat) where
  normal : Fin m → Int
  bound : Int
  deriving DecidableEq

def HalfSpace.row {m : Nat} (h : HalfSpace m) : Fin m → Rat := fun i => h.normal i

variable {m : Nat} {F : Finset (HalfSpace m)} {x y v d : Fin m → Rat}

def HalfSpace.opposite (h : HalfSpace m) : HalfSpace m := ⟨-h.normal, -h.bound⟩

theorem HalfSpace.opposite_dotProduct (h : HalfSpace m) (y : Fin m → Rat) :
    h.opposite.row ⬝ᵥ y = -(h.row ⬝ᵥ y) := by
  have hrow : h.opposite.row = -h.row := funext fun i => Int.cast_neg (h.normal i)
  rw [hrow, neg_dotProduct]

theorem HalfSpace.opposite_le {h : HalfSpace m} :
    (h.opposite.bound : Rat) ≤ h.opposite.row ⬝ᵥ y ↔ h.row ⬝ᵥ y ≤ h.bound := by
  have hbound : (h.opposite.bound : Rat) = -h.bound := Int.cast_neg h.bound
  rw [opposite_dotProduct, hbound, neg_le_neg_iff]

theorem HalfSpace.sum_sq_opposite (h : HalfSpace m) :
    ∑ j, h.opposite.normal j ^ 2 = ∑ j, h.normal j ^ 2 :=
  Finset.sum_congr rfl fun j _ => neg_sq (h.normal j)

def HalfSpace.along {β : Type} (l : List β) (f : β → Int) (bound : Int) : HalfSpace l.length :=
  ⟨fun i => f l[i], bound⟩

theorem HalfSpace.along_bound {β : Type} (l : List β) (f : β → Int) (bound : Int) :
    (along l f bound).bound = bound := rfl

theorem HalfSpace.along_dotProduct {β : Type} (l : List β) (f : β → Int) (bound : Int)
    (x : β → Rat) : (along l f bound).row ⬝ᵥ (fun i => x l[i]) =
      (l.map fun b => (f b : Rat) * x b).sum :=
  Fin.sum_univ_fun_getElem l fun b => (f b : Rat) * x b

theorem HalfSpace.sum_sq_along {β : Type} (l : List β) (f : β → Int) (bound : Int) :
    ∑ j, (along l f bound).normal j ^ 2 = (l.map fun b => f b ^ 2).sum :=
  Fin.sum_univ_fun_getElem l fun b => f b ^ 2

def Inside (F : Finset (HalfSpace m)) (x : Fin m → Rat) : Prop := ∀ h ∈ F, h.bound ≤ h.row ⬝ᵥ x

/-- Every direction leads out of one of the half-spaces. -/
def Bounded (F : Finset (HalfSpace m)) : Prop := ∀ d, d ≠ 0 → ∃ h ∈ F, h.row ⬝ᵥ d < 0

/-- The half-spaces on whose planes a point lies. -/
def tight (F : Finset (HalfSpace m)) (x : Fin m → Rat) : Finset (HalfSpace m) :=
  F.filter fun h => h.row ⬝ᵥ x = h.bound

theorem mem_tight {h : HalfSpace m} : h ∈ tight F x ↔ h ∈ F ∧ h.row ⬝ᵥ x = h.bound :=
  Finset.mem_filter

/-- A point that no direction leaves without leaving one of its planes. -/
structure IsVertex (F : Finset (HalfSpace m)) (x : Fin m → Rat) : Prop where
  inside : Inside F x
  rigid : ∀ d, (∀ h ∈ tight F x, h.row ⬝ᵥ d = 0) → d = 0

/-! ### Cheapest vertices -/

theorem exists_tighter (hbounded : Bounded F) (hx : Inside F x) (hd : d ≠ 0)
    (hflat : ∀ h ∈ tight F x, h.row ⬝ᵥ d = 0) :
    ∃ s : Rat, 0 ≤ s ∧ Inside F (x + s • d) ∧ tight F x ⊂ tight F (x + s • d) := by
  obtain ⟨h₀, hmem₀, hfalls₀⟩ := hbounded d hd
  obtain ⟨h, hmem, hfirst⟩ := (F.filter fun h => h.row ⬝ᵥ d < 0).exists_min_image
    (fun h => (h.row ⬝ᵥ x - h.bound) / -(h.row ⬝ᵥ d))
    ⟨h₀, Finset.mem_filter.mpr ⟨hmem₀, hfalls₀⟩⟩
  obtain ⟨hF, hfalls⟩ := Finset.mem_filter.mp hmem
  have hat : ∀ (g : HalfSpace m) (s : Rat), g.row ⬝ᵥ (x + s • d) = g.row ⬝ᵥ x + s * g.row ⬝ᵥ d :=
    fun g s => by rw [dotProduct_add, dotProduct_smul, smul_eq_mul]
  have hpos : 0 < -(h.row ⬝ᵥ d) := by linarith
  have hnonneg : 0 ≤ (h.row ⬝ᵥ x - h.bound) / -(h.row ⬝ᵥ d) :=
    div_nonneg (by linarith [hx h hF]) hpos.le
  refine ⟨_, hnonneg, fun g hg => ?_, Finset.ssubset_iff_of_subset (fun g hg => ?_) |>.mpr
    ⟨h, ?_, ?_⟩⟩
  · rw [hat]
    by_cases hneg : g.row ⬝ᵥ d < 0
    · have hle := hfirst g (Finset.mem_filter.mpr ⟨hg, hneg⟩)
      rw [le_div_iff₀ (by linarith)] at hle
      linarith
    · have := mul_nonneg hnonneg (not_lt.mp hneg)
      linarith [hx g hg]
  · obtain ⟨hgF, htight⟩ := mem_tight.mp hg
    exact mem_tight.mpr ⟨hgF, by rw [hat, hflat g hg, mul_zero, add_zero, htight]⟩
  · refine mem_tight.mpr ⟨hF, ?_⟩
    have hne := hfalls.ne
    rw [hat]
    field_simp
    ring
  · intro hbefore
    exact absurd (hflat h hbefore) hfalls.ne

/-- From every point one gets to a vertex that costs no more. -/
theorem exists_vertex_le (hbounded : Bounded F) (c : Fin m → Rat) (hx : Inside F x) :
    ∃ v, IsVertex F v ∧ c ⬝ᵥ v ≤ c ⬝ᵥ x := by
  induction hn : F.card - (tight F x).card using Nat.strong_induction_on generalizing x with
  | _ n ih =>
      by_cases hrigid : ∀ d, (∀ h ∈ tight F x, h.row ⬝ᵥ d = 0) → d = 0
      · exact ⟨x, ⟨hx, hrigid⟩, le_rfl⟩
      · -- One of a direction and its opposite does not get dearer.
        obtain ⟨d, hflat, hd, hcost⟩ : ∃ d, (∀ h ∈ tight F x, h.row ⬝ᵥ d = 0) ∧ d ≠ 0 ∧
            c ⬝ᵥ d ≤ 0 := by
          push Not at hrigid
          obtain ⟨d, hflat, hd⟩ := hrigid
          rcases le_total (c ⬝ᵥ d) 0 with hcost | hcost
          · exact ⟨d, hflat, hd, hcost⟩
          · refine ⟨-d, fun h hh => ?_, neg_ne_zero.mpr hd, ?_⟩
            · rw [dotProduct_neg, hflat h hh, neg_zero]
            · rw [dotProduct_neg]
              linarith
        obtain ⟨s, hs, hinside, htighter⟩ := exists_tighter hbounded hx hd hflat
        have hcard := Finset.card_lt_card htighter
        have hle : (tight F (x + s • d)).card ≤ F.card := Finset.card_filter_le _ _
        obtain ⟨v, hv, hcheap⟩ := ih _ (by omega) hinside rfl
        refine ⟨v, hv, hcheap.trans ?_⟩
        rw [dotProduct_add, dotProduct_smul, smul_eq_mul]
        linarith [mul_nonpos_of_nonneg_of_nonpos hs hcost]

theorem IsVertex.eq_of_tight (hx : IsVertex F x) (h : tight F x = tight F y) : x = y := by
  refine sub_eq_zero.mp (hx.rigid _ fun g hg => ?_)
  rw [dotProduct_sub, (mem_tight.mp hg).2, (mem_tight.mp (h ▸ hg)).2, sub_self]

theorem finite_vertices (F : Finset (HalfSpace m)) : { v | IsVertex F v }.Finite :=
  Set.Finite.of_injOn (f := tight F) (t := ↑F.powerset)
    (fun _ _ => Finset.mem_coe.mpr (Finset.mem_powerset.mpr (Finset.filter_subset _ _)))
    (fun _ hx _ _ h => IsVertex.eq_of_tight hx h) F.powerset.finite_toSet

/-- A polytope with a point in it has a cheapest vertex. -/
theorem exists_least_vertex (hbounded : Bounded F) (c : Fin m → Rat) (hx : Inside F x) :
    ∃ v, IsVertex F v ∧ ∀ y, Inside F y → c ⬝ᵥ v ≤ c ⬝ᵥ y := by
  obtain ⟨v₀, hv₀, -⟩ := exists_vertex_le hbounded c hx
  obtain ⟨v, hv, hleast⟩ := Set.exists_min_image _ (c ⬝ᵥ ·) (finite_vertices F) ⟨v₀, hv₀⟩
  refine ⟨v, hv, fun y hy => ?_⟩
  obtain ⟨w, hw, hle⟩ := exists_vertex_le hbounded c hy
  exact (hleast w hw).trans hle

/-! ### Coordinates of vertices -/

theorem sq_det_le (M : Matrix (Fin m) (Fin m) Int) {B : Nat} (hrows : ∀ i, ∑ j, M i j ^ 2 ≤ B) :
    M.det ^ 2 ≤ B ^ m := by
  let b := EuclideanSpace.basisFun (Fin m) ℝ
  let rows : Fin m → EuclideanSpace ℝ (Fin m) := fun i => WithLp.toLp 2 fun j => (M i j : ℝ)
  have : Fact (Module.finrank ℝ (EuclideanSpace ℝ (Fin m)) = m) := ⟨by simp⟩
  have hadamard := b.toBasis.orientation.abs_volumeForm_apply_le rows
  rw [b.toBasis.orientation.volumeForm_robust' b] at hadamard
  have hdet : b.toBasis.det rows = (M.det : ℝ) := by
    rw [Module.Basis.det_apply, ← Matrix.det_transpose, Int.cast_det]
    rfl
  have hnorm : ∀ i, ‖rows i‖ ^ 2 ≤ B := by
    intro i
    rw [EuclideanSpace.norm_sq_eq]
    have := hrows i
    simp only [rows, Real.norm_eq_abs, sq_abs]
    exact_mod_cast this
  have hreal : (M.det : ℝ) ^ 2 ≤ (B : ℝ) ^ m := by
    calc (M.det : ℝ) ^ 2 = |b.toBasis.det rows| ^ 2 := by rw [hdet, sq_abs]
      _ ≤ (∏ i, ‖rows i‖) ^ 2 := by gcongr
      _ = ∏ i, ‖rows i‖ ^ 2 := (Finset.prod_pow _ _ _).symm
      _ ≤ ∏ _i : Fin m, (B : ℝ) := Finset.prod_le_prod (fun _ _ => by positivity) fun i _ => hnorm i
      _ = (B : ℝ) ^ m := by simp
  exact_mod_cast hreal

theorem IsVertex.exists_planes (hv : IsVertex F v) : ∃ planes : Fin m → HalfSpace m,
    (∀ i, planes i ∈ tight F v) ∧ LinearIndependent Rat fun i => (planes i).row := by
  let A : Matrix (tight F v) (Fin m) Rat := fun h => h.val.row
  have hinjective : Function.Injective A.mulVecLin := by
    rw [injective_iff_map_eq_zero]
    exact fun d hd => hv.rigid d fun h hh => congrFun hd ⟨h, hh⟩
  have hrank : Module.finrank Rat (Submodule.span Rat (Set.range A.row)) = m := by
    rw [← A.rank_eq_finrank_span_row, Matrix.rank, LinearMap.finrank_range_of_inj hinjective,
      Module.finrank_fin_fun]
  have hfamily := Submodule.exists_fun_fin_finrank_span_eq Rat (Set.range A.row)
  rw [hrank] at hfamily
  obtain ⟨f, hrange, -, hindependent⟩ := hfamily
  choose planes hplanes using hrange
  obtain rfl : f = fun i => (planes i).val.row := funext fun i => (hplanes i).symm
  exact ⟨fun i => planes i, fun i => (planes i).property, hindependent⟩

/-- The coordinates of a vertex have a common denominator that is not large. -/
theorem IsVertex.exists_denominator {B : Nat} (hshort : ∀ h ∈ F, ∑ j, h.normal j ^ 2 ≤ B)
    (hv : IsVertex F v) : ∃ D : Int, D ≠ 0 ∧ D ^ 2 ≤ B ^ m ∧ ∀ i, ∃ z : Int, D * v i = z := by
  obtain ⟨planes, htight, hindependent⟩ := hv.exists_planes
  let cast : Int →+* Rat := Int.castRingHom Rat
  let M : Matrix (Fin m) (Fin m) Int := fun i => (planes i).normal
  let bounds : Fin m → Int := fun j => (planes j).bound
  refine ⟨M.det, fun hzero => ?_, sq_det_le M fun i => hshort _ (mem_tight.mp (htight i)).1,
    fun i => ⟨(M.adjugate *ᵥ bounds) i, ?_⟩⟩
  · have hunit := Matrix.linearIndependent_rows_iff_isUnit.mp
      (show LinearIndependent Rat (cast.mapMatrix M).row from hindependent)
    rw [Matrix.isUnit_iff_isUnit_det, ← RingHom.map_det, hzero, map_zero] at hunit
    exact not_isUnit_zero hunit
  · have hplanes : cast.mapMatrix M *ᵥ v = cast ∘ bounds :=
      funext fun j => (mem_tight.mp (htight j)).2
    -- Cramer's rule.
    calc (M.det : Rat) * v i = ((cast.mapMatrix M).det • v) i := by rw [← RingHom.map_det]; rfl
      _ = ((cast.mapMatrix M).adjugate *ᵥ (cast ∘ bounds)) i := by
          rw [← hplanes, Matrix.mulVec_mulVec, Matrix.adjugate_mul, Matrix.smul_mulVec,
            Matrix.one_mulVec]
      _ = ((M.adjugate *ᵥ bounds) i : Rat) := by
          rw [← RingHom.map_adjugate]
          exact (RingHom.map_mulVec cast _ _ _).symm

/-- Coordinates of a vertex that are almost whole are whole, if all normals are short. -/
theorem IsVertex.whole {B : Nat} (hshort : ∀ h ∈ F, ∑ j, h.normal j ^ 2 ≤ B)
    {N : Int} (hN : 0 < N) (hsmall : (B : Int) ^ m < N ^ 2) (hv : IsVertex F v) (i : Fin m)
    (k : Int) (hnear : |v i - k| ≤ 1 / N) : v i = k := by
  obtain ⟨D, hD, hle, hwhole⟩ := hv.exists_denominator hshort
  obtain ⟨z, hz⟩ := hwhole i
  have habs : |D| < N := abs_lt_of_sq_lt_sq (hle.trans_lt hsmall) hN.le
  -- The distance from the whole number is itself whole, when multiplied by the denominator.
  have hsteps : |z - D * k| < 1 := by
    have hdist : |((z - D * k : Int) : Rat)| = |(D : Rat)| * |v i - k| := by
      rw [← abs_mul, mul_sub, hz]
      push_cast
      rfl
    have hlt : |(D : Rat)| * |v i - k| < 1 := by
      calc |(D : Rat)| * |v i - k| ≤ |(D : Rat)| * (1 / N) := by gcongr
        _ < N * (1 / N) := by gcongr; exact_mod_cast habs
        _ = 1 := mul_one_div_cancel (by exact_mod_cast hN.ne')
    rw [← hdist] at hlt
    exact_mod_cast hlt
  have hzero : z - D * k = 0 := Int.abs_lt_one_iff.mp hsteps
  have hD' : (D : Rat) ≠ 0 := Int.cast_ne_zero.mpr hD
  refine mul_left_cancel₀ hD' ?_
  rw [hz, sub_eq_zero.mp hzero, Int.cast_mul]

end TourSearch.Linear
