import TourSearch.Numeric.Scalar

/-!
Extended fractions: all fractions, two infinities, and one value that stands for no number. They
compute like doubles, except that nothing is rounded and that there is only one zero. A statement
about exact arithmetic is a statement about this instance of `Scalar`; on finite values every
operation is that of the fractions.
-/

namespace TourSearch.Numeric

inductive Extended where
  | negInfinity
  | finite (value : Rat)
  | infinity
  | undefined
  deriving DecidableEq, Repr

namespace Extended

/-- The infinity in the direction of a fraction, which zero does not have. -/
def toward (x : Rat) : Extended :=
  if 0 < x then .infinity else if x < 0 then .negInfinity else .undefined

def neg : Extended → Extended
  | .negInfinity => .infinity
  | .finite x => .finite (-x)
  | .infinity => .negInfinity
  | .undefined => .undefined

/-- Opposite infinities have no sum. -/
def add : Extended → Extended → Extended
  | .finite x, .finite y => .finite (x + y)
  | .infinity, .infinity => .infinity
  | .infinity, .finite _ => .infinity
  | .finite _, .infinity => .infinity
  | .negInfinity, .negInfinity => .negInfinity
  | .negInfinity, .finite _ => .negInfinity
  | .finite _, .negInfinity => .negInfinity
  | _, _ => .undefined

/-- Zero times an infinity is no number. -/
def mul : Extended → Extended → Extended
  | .finite x, .finite y => .finite (x * y)
  | .finite x, .infinity => toward x
  | .infinity, .finite y => toward y
  | .finite x, .negInfinity => toward (-x)
  | .negInfinity, .finite y => toward (-y)
  | .infinity, .infinity => .infinity
  | .negInfinity, .negInfinity => .infinity
  | .infinity, .negInfinity => .negInfinity
  | .negInfinity, .infinity => .negInfinity
  | _, _ => .undefined

/-- A fraction over an infinity is zero, and over zero the infinity in its direction. -/
def div : Extended → Extended → Extended
  | .finite x, .finite y => if y = 0 then toward x else .finite (x / y)
  | .finite _, .infinity => .finite 0
  | .finite _, .negInfinity => .finite 0
  | .infinity, .finite y => if y < 0 then .negInfinity else .infinity
  | .negInfinity, .finite y => if y < 0 then .infinity else .negInfinity
  | _, _ => .undefined

def magnitude : Extended → Extended
  | .finite x => .finite (if x < 0 then -x else x)
  | .undefined => .undefined
  | _ => .infinity

def Below : Extended → Extended → Prop
  | .finite x, .finite y => x < y
  | .negInfinity, .finite _ => True
  | .negInfinity, .infinity => True
  | .finite _, .infinity => True
  | _, _ => False

/-- Two values are equal as numbers; an undefined value equals nothing. -/
def Same : Extended → Extended → Prop
  | .finite x, .finite y => x = y
  | .negInfinity, .negInfinity => True
  | .infinity, .infinity => True
  | _, _ => False

instance (a b : Extended) : Decidable (Below a b) := by
  cases a <;> cases b <;> dsimp only [Below] <;> infer_instance

instance (a b : Extended) : Decidable (Same a b) := by
  cases a <;> cases b <;> dsimp only [Same] <;> infer_instance

instance : Add Extended := ⟨add⟩

instance : Sub Extended := ⟨fun a b => add a (neg b)⟩

instance : Mul Extended := ⟨mul⟩

instance : Div Extended := ⟨div⟩

instance : LT Extended := ⟨Below⟩

instance : LE Extended := ⟨fun a b => Below a b ∨ Same a b⟩

instance : BEq Extended := ⟨fun a b => decide (Same a b)⟩

instance : DecidableLT Extended := fun a b => inferInstanceAs (Decidable (Below a b))

instance : DecidableLE Extended := fun a b => inferInstanceAs (Decidable (Below a b ∨ Same a b))

def reading : Extended → Reading
  | .negInfinity => .infinite true
  | .finite x => Reading.ofRat x
  | .infinity => .infinite false
  | .undefined => .undefined

instance : Scalar Extended where
  decLT := inferInstance
  decLE := inferInstance
  magnitude := magnitude
  infinity := .infinity
  negInfinity := .negInfinity
  ofRat := .finite
  reading := reading

@[simp] theorem finite_add_finite (x y : Rat) :
    (finite x + finite y : Extended) = finite (x + y) := rfl

@[simp] theorem finite_sub_finite (x y : Rat) :
    (finite x - finite y : Extended) = finite (x - y) := by
  rw [Rat.sub_eq_add_neg]
  rfl

@[simp] theorem finite_mul_finite (x y : Rat) :
    (finite x * finite y : Extended) = finite (x * y) := rfl

@[simp] theorem infinity_sub_finite (x : Rat) :
    (infinity - finite x : Extended) = infinity := rfl

@[simp] theorem finite_lt_finite {x y : Rat} : (finite x < finite y) ↔ x < y := Iff.rfl

@[simp] theorem finite_le_finite {x y : Rat} : (finite x ≤ finite y) ↔ x ≤ y := by
  show x < y ∨ x = y ↔ x ≤ y
  exact Rat.le_iff_lt_or_eq.symm

end Extended

end TourSearch.Numeric
