import TourSearch.Numeric.Rounding

/-!
The exact value of a number. Every finite double is a fraction, so a computation that must not
depend on rounding can read its operands off exactly, and a printer can work on the fraction. In
the other direction `nearestFloat` takes a fraction to the nearest double, a tie going to the
even significand.
-/

namespace TourSearch.Numeric

/-- What a number is: a signed fraction, an infinity, or no number at all. The sign is kept apart
from the magnitude, so that a negative zero is told from zero. -/
inductive Reading where
  | undefined
  | infinite (negative : Bool)
  | finite (negative : Bool) (magnitude : Rat)
  deriving DecidableEq, Repr

namespace Reading

def ofRat (q : Rat) : Reading := .finite (q < 0) (if q < 0 then -q else q)

def toRat? : Reading → Option Rat
  | .finite negative magnitude => some (if negative then -magnitude else magnitude)
  | _ => none

def ofBits (bits : UInt64) : Reading :=
  let word : Nat := bits.toNat
  let negative := word / twoTo 63 % 2 == 1
  let exponent : Nat := word / twoTo 52 % twoTo 11
  let fraction : Nat := word % twoTo 52
  if exponent = 2047 then
    if fraction = 0 then .infinite negative else .undefined
  else if exponent = 0 then .finite negative (mkRat (fraction : Int) (twoTo 1074))
  else if exponent < 1075 then
    .finite negative (mkRat ((fraction + twoTo 52 : Nat) : Int) (twoTo (1075 - exponent)))
  else .finite negative (mkRat ((fraction + twoTo 52) * twoTo (exponent - 1075) : Nat) 1)

def ofFloat (x : Float) : Reading := ofBits x.toBits

end Reading

/-- The bits of the double nearest to the positive fraction `num / den`: the significand is the
quotient scaled to 53 bits, or fewer near the smallest doubles. -/
def nearestBits (num den : Nat) : Nat :=
  let estimate : Int := (num.log2 : Int) - den.log2 - 52
  let scaled (shift : Int) : Nat × Nat :=
    if 0 ≤ shift then (num, den * twoTo shift.toNat) else (num * twoTo (-shift).toNat, den)
  let full := scaled estimate
  let shift := if full.1 < full.2 * twoTo 52 then estimate - 1 else estimate
  let shift := if shift < -1074 then -1074 else shift
  let parts := scaled shift
  let significand := roundHalfEven parts.1 parts.2
  if significand < twoTo 52 then significand
  else
    let carried := significand = twoTo 53
    let fraction := if carried then 0 else significand - twoTo 52
    let exponent := shift + 1075 + (if carried then 1 else 0)
    if 2047 ≤ exponent then 2047 * twoTo 52 else exponent.toNat * twoTo 52 + fraction

def nearestFloat (q : Rat) : Float :=
  if q.num = 0 then 0.0
  else
    let bits := nearestBits q.num.natAbs q.den
    let signed := if q.num < 0 then bits + twoTo 63 else bits
    Float.ofBits signed.toUInt64

end TourSearch.Numeric
