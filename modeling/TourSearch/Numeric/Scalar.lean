import TourSearch.Fault
import TourSearch.Numeric.Reading

/-!
The arithmetic in which edge values, bounds and costs are computed. The program runs in doubles;
statements about exact arithmetic take the extended fractions of `Numeric.Extended`. An
instance has the operations and comparisons, the two infinities, the nearest value to a fraction
and the exact reading of a value. Comparisons are those of the instance: in doubles everything
compared with an undefined number is false.
-/

namespace TourSearch

open Numeric

class Scalar (α : Type) extends Add α, Sub α, Mul α, Div α, LT α, LE α, BEq α where
  decLT : DecidableLT α
  decLE : DecidableLE α
  magnitude : α → α
  infinity : α
  negInfinity : α
  /-- The value nearest to a fraction. -/
  ofRat : Rat → α
  /-- The exact value. -/
  reading : α → Reading

namespace Scalar

instance {α : Type} [Scalar α] : DecidableLT α := Scalar.decLT

instance {α : Type} [Scalar α] : DecidableLE α := Scalar.decLE

instance : Scalar Float where
  decLT := inferInstance
  decLE := inferInstance
  magnitude := Float.abs
  infinity := Float.ofBits 0x7ff0000000000000
  negInfinity := Float.ofBits 0xfff0000000000000
  ofRat := nearestFloat
  reading := Reading.ofFloat

variable {α : Type} [Scalar α]

def ofInt (n : Int) : α := ofRat n

def ratio (num : Int) (den : Nat) : α := ofRat (mkRat num den)

def zero : α := ofInt 0
def one : α := ofInt 1
def two : α := ofInt 2
def half : α := ratio 1 2

def smaller (a b : α) : α := if b < a then b else a

def larger (a b : α) : α := if a < b then b else a

/-- The whole part, toward zero. -/
def truncate (x : α) : Except Fault α :=
  match reading x with
  | .undefined => .error .undefinedTruncation
  | .infinite _ => .error .infiniteTruncation
  | .finite negative magnitude =>
      let whole : Int := magnitude.floor
      .ok (ofInt (if negative then -whole else whole))

/-- What remains of a value behind its whole part, with the sign of the value. -/
def fraction (x : α) : Except Fault α := do
  return x - (← truncate x)

def sum (xs : List α) : α := xs.foldl (· + ·) zero

end Scalar

end TourSearch
