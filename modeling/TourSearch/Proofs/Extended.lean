import TourSearch.Graph.CutGraph
import TourSearch.Numeric.Extended
import Mathlib

/-!
Comparison of extended fractions. Apart from the value that stands for no number they are linearly
ordered; comparisons between the four kinds of values are decided by `simp`, and the laws of the
order follow by cases.
-/

namespace TourSearch.Numeric.Extended

def toRat : Extended → Rat
  | .finite x => x
  | _ => 0

@[simp] theorem toRat_finite (x : Rat) : (finite x).toRat = x := rfl

theorem beq_iff {a b : Extended} : (a == b) = true ↔ Same a b := by
  show decide (Same a b) = true ↔ _
  exact decide_eq_true_iff

@[simp] theorem not_le_undefined (a : Extended) : ¬a ≤ undefined := by
  rintro (h | h) <;> cases a <;> exact h

@[simp] theorem not_undefined_le (a : Extended) : ¬undefined ≤ a := by
  rintro (h | h) <;> cases a <;> exact h

@[simp] theorem not_lt_undefined (a : Extended) : ¬a < undefined := by
  intro h
  cases a <;> exact h

@[simp] theorem not_undefined_lt (a : Extended) : ¬undefined < a := by
  intro h
  cases a <;> exact h

@[simp] theorem le_infinity {a : Extended} : a ≤ infinity ↔ a ≠ undefined := by
  cases a with
  | undefined => simp
  | infinity => exact iff_of_true (Or.inr trivial) (by simp)
  | _ => exact iff_of_true (Or.inl trivial) (by simp)

@[simp] theorem negInfinity_le {a : Extended} : negInfinity ≤ a ↔ a ≠ undefined := by
  cases a with
  | undefined => simp
  | negInfinity => exact iff_of_true (Or.inr trivial) (by simp)
  | _ => exact iff_of_true (Or.inl trivial) (by simp)

@[simp] theorem not_infinity_lt (a : Extended) : ¬infinity < a := by
  intro h
  cases a <;> exact h

@[simp] theorem not_lt_negInfinity (a : Extended) : ¬a < negInfinity := by
  intro h
  cases a <;> exact h

@[simp] theorem infinity_le {a : Extended} : infinity ≤ a ↔ a = infinity := by
  cases a with
  | infinity => exact iff_of_true (Or.inr trivial) rfl
  | _ => exact iff_of_false (by rintro (h | h) <;> exact h) (by simp)

@[simp] theorem le_negInfinity {a : Extended} : a ≤ negInfinity ↔ a = negInfinity := by
  cases a with
  | negInfinity => exact iff_of_true (Or.inr trivial) rfl
  | _ => exact iff_of_false (by rintro (h | h) <;> exact h) (by simp)

@[simp] theorem lt_infinity {a : Extended} : a < infinity ↔ a ≠ undefined ∧ a ≠ infinity := by
  cases a with
  | undefined => simp
  | infinity => simp
  | _ => exact iff_of_true trivial (by simp)

@[simp] theorem negInfinity_lt {a : Extended} :
    negInfinity < a ↔ a ≠ undefined ∧ a ≠ negInfinity := by
  cases a with
  | undefined => simp
  | negInfinity => simp
  | _ => exact iff_of_true trivial (by simp)

theorem le_refl {a : Extended} (h : a ≠ undefined) : a ≤ a := by
  cases a <;> simp_all

theorem le_trans {a b c : Extended} (hab : a ≤ b) (hbc : b ≤ c) : a ≤ c := by
  cases a <;> cases b <;> cases c <;> simp_all
  exact hab.trans hbc

theorem lt_of_le_of_lt {a b c : Extended} (hab : a ≤ b) (hbc : b < c) : a < c := by
  cases a <;> cases b <;> cases c <;> simp_all
  exact hab.trans_lt hbc

theorem lt_of_lt_of_le {a b c : Extended} (hab : a < b) (hbc : b ≤ c) : a < c := by
  cases a <;> cases b <;> cases c <;> simp_all
  exact hab.trans_le hbc

theorem not_lt_self {a : Extended} : ¬a < a := by
  cases a <;> simp

theorem le_of_lt {a b : Extended} (h : a < b) : a ≤ b := Or.inl h

theorem not_le {a b : Extended} (ha : a ≠ undefined) (hb : b ≠ undefined) : ¬a ≤ b ↔ b < a := by
  cases a <;> cases b <;> simp_all

theorem not_lt {a b : Extended} (ha : a ≠ undefined) (hb : b ≠ undefined) : ¬a < b ↔ b ≤ a := by
  cases a <;> cases b <;> simp_all

theorem ne_undefined_of_le {a b : Extended} (h : a ≤ b) : a ≠ undefined ∧ b ≠ undefined := by
  constructor
  · rintro rfl
    simp at h
  · rintro rfl
    simp at h

@[simp] theorem negInfinity_sub_finite (x : Rat) :
    (negInfinity - finite x : Extended) = negInfinity := rfl

theorem sub_finite_ne_undefined {a : Extended} (h : a ≠ undefined) (x : Rat) :
    a - finite x ≠ undefined := by
  cases a <;> simp_all

theorem sub_finite_le_sub_finite {a b : Extended} (h : a ≤ b) (x : Rat) :
    a - finite x ≤ b - finite x := by
  cases a <;> cases b <;> simp_all

theorem sub_finite_anti {a : Extended} (h : a ≠ undefined) {x y : Rat} (hxy : x ≤ y) :
    a - finite y ≤ a - finite x := by
  cases a with
  | negInfinity => simp
  | finite z =>
      rw [finite_sub_finite, finite_sub_finite, finite_le_finite]
      exact sub_le_sub_left hxy z
  | infinity => simp
  | undefined => exact absurd rfl h

theorem sub_finite_le {a : Extended} (h : a ≠ undefined) {x : Rat} (hx : 0 ≤ x) :
    a - finite x ≤ a := by
  cases a <;> simp_all

theorem le_add_finite {a : Extended} (h : a ≠ undefined) {x : Rat} (hx : 0 ≤ x) :
    a ≤ a + finite x := by
  cases a with
  | finite y =>
      rw [finite_add_finite, finite_le_finite]
      exact le_add_of_nonneg_right hx
  | infinity | negInfinity => exact le_refl nofun
  | undefined => exact absurd rfl h

theorem sub_le_sub_of_le {a b c : Extended} (hca : c ≤ a) (hab : a ≤ b) (hne : a - c ≠ undefined) :
    a - c ≤ b - c := by
  cases c with
  | finite x => exact sub_finite_le_sub_finite hab x
  | infinity =>
      rw [infinity_le.mp hca] at hne
      exact absurd rfl hne
  | undefined => exact absurd hca (not_undefined_le a)
  | negInfinity =>
      have hinfinite (d : Extended) (hd : d ≠ undefined) (hd' : d ≠ negInfinity) :
          d - negInfinity = infinity := by
        cases d with
        | finite x => rfl
        | infinity => rfl
        | undefined => exact absurd rfl hd
        | negInfinity => exact absurd rfl hd'
      have ha : a ≠ negInfinity := by
        rintro rfl
        exact hne rfl
      have hb : b ≠ negInfinity := by
        rintro rfl
        exact ha (le_negInfinity.mp hab)
      obtain ⟨hna, hnb⟩ := ne_undefined_of_le hab
      rw [hinfinite a hna ha, hinfinite b hnb hb]
      exact le_refl nofun

/-! ### Constants and sums -/

@[simp] theorem scalar_zero : (Scalar.zero : Extended) = finite 0 := rfl

@[simp] theorem scalar_one : (Scalar.one : Extended) = finite 1 := rfl

@[simp] theorem scalar_two : (Scalar.two : Extended) = finite 2 := rfl

@[simp] theorem scalar_half : (Scalar.half : Extended) = finite (1 / 2) := by
  show finite (mkRat 1 2) = finite (1 / 2)
  norm_num [Rat.mkRat_eq_div]

@[simp] theorem scalar_infinity : (Scalar.infinity : Extended) = infinity := rfl

@[simp] theorem scalar_negInfinity : (Scalar.negInfinity : Extended) = negInfinity := rfl

@[simp] theorem scalar_millionth :
    (Scalar.ratio 1 1000000 : Extended) = finite (1 / 1000000) := by
  show finite (mkRat 1 1000000) = finite (1 / 1000000)
  norm_num [Rat.mkRat_eq_div]

@[simp] theorem magnitude_finite (x : Rat) :
    (Scalar.magnitude (finite x) : Extended) = finite |x| := by
  show finite (if x < 0 then -x else x) = finite |x|
  split
  · rename_i hneg
    rw [abs_of_neg hneg]
  · rename_i hneg
    rw [abs_of_nonneg (le_of_not_gt hneg)]

theorem finite_div_finite {x y : Rat} (hy : y ≠ 0) :
    (finite x / finite y : Extended) = finite (x / y) := if_neg hy

theorem smaller_spec {a b : Extended} (ha : a ≠ undefined) (hb : b ≠ undefined) :
    Scalar.smaller a b ≠ undefined ∧ Scalar.smaller a b ≤ a ∧ Scalar.smaller a b ≤ b := by
  unfold Scalar.smaller
  split
  · rename_i hlt
    exact ⟨hb, le_of_lt hlt, le_refl hb⟩
  · rename_i hlt
    exact ⟨ha, le_refl ha, (not_lt hb ha).mp hlt⟩

@[simp] theorem precision_eq : (precision : Extended) = finite (1 / 1000000) := scalar_millionth

theorem foldl_add_finite (xs : List Rat) (x : Rat) :
    (xs.map finite).foldl (· + ·) (finite x) = finite (x + xs.sum) := by
  induction xs generalizing x with
  | nil => simp
  | cons y ys ih => rw [List.map_cons, List.foldl_cons, finite_add_finite, ih, List.sum_cons,
    add_assoc]

@[simp] theorem sum_map_finite (xs : List Rat) : Scalar.sum (xs.map finite) = finite xs.sum := by
  rw [Scalar.sum, scalar_zero, foldl_add_finite, zero_add]

theorem sum_finite {β : Type} (l : List β) (f : β → Rat) :
    Scalar.sum (l.map fun b => finite (f b)) = finite (l.map f).sum := by
  rw [← sum_map_finite, List.map_map]
  rfl

theorem sum_filter_map {β : Type} (l : List β) (test : β → Bool) (f : β → Rat) :
    ((l.filter test).map f).sum = (l.map fun b => if test b then f b else 0).sum := by
  induction l with
  | nil => rfl
  | cons b l ih =>
      rw [List.filter_cons, List.map_cons, List.sum_cons, ← ih]
      split <;> simp

end TourSearch.Numeric.Extended
