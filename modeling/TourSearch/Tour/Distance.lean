import TourSearch.Tour.Instance

/-!
Distances between points. The differences of the coordinates are doubles; the root of the sum of
their squares is taken of the exact sum and rounded once, so it neither overflows nor underflows on
the way. An infinite difference makes the distance infinite, also beside an undefined one.
-/

namespace TourSearch

namespace Numeric

/-- The bits of the root of `n`, from the highest of `bits` down. -/
def rootFrom (n : Nat) : Nat → Nat → Nat
  | 0, root => root
  | bits + 1, root =>
      let next := root + twoTo bits
      rootFrom n bits (if next * next ≤ n then next else root)

def squareRoot (n : Nat) : Nat := rootFrom n (n.log2 / 2 + 1) 0

/-- The double nearest to the square root of a fraction. The root is found to well over 53 bits, and
a further bit tells whether anything was cut off. -/
def nearestRoot (q : Rat) : Float :=
  if q.num ≤ 0 then 0.0
  else
    let num := q.num.natAbs
    let shift := ((q.den.log2 + 140) - num.log2) / 2
    let scaled := num * twoTo (2 * shift)
    let root := squareRoot (scaled / q.den)
    let exact := root * root * q.den = scaled
    nearestFloat (mkRat (2 * root + if exact then 0 else 1) (twoTo (shift + 1)))

end Numeric

open Numeric

def distance (p q : List Float) : Except Fault Float :=
  if p.length ≠ q.length then .error .unequalDimensions
  else
    let readings := (p.zip q).map fun (a, b) => Reading.ofFloat (a - b)
    if readings.any fun r => r == .infinite true || r == .infinite false then
      .ok Scalar.infinity
    else if readings.contains .undefined then .ok (Float.ofBits 0x7ff8000000000000)
    else
      let squares := readings.filterMap fun r => r.toRat?.map fun x => x * x
      .ok (nearestRoot (squares.foldl (· + ·) 0))

def Instance.ofPoints (points : List (List Float)) (name : String) :
    Except Fault (Instance Float) := do
  let costs ← points.mapM fun p => points.mapM fun q => distance p q
  Instance.make costs name

end TourSearch
