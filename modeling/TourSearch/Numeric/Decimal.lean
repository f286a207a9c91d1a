import TourSearch.Numeric.Reading

/-!
Decimal texts of exact values: a fixed number of places, a number of significant digits, and
columns of a given width. All of them round the exact value once, half to even.
-/

namespace TourSearch.Numeric

def alignRight (width : Nat) (text : String) : String :=
  "".pushn ' ' (width - text.length) ++ text

def digitsPadded (width n : Nat) : String :=
  let digits := n.repr
  "".pushn '0' (width - digits.length) ++ digits

/-- The places behind the point of `units` units of size `10 ^ -places`, with the whole part. -/
def pointed (places units : Nat) : String :=
  if places = 0 then units.repr
  else (units / tenTo places).repr ++ "." ++ digitsPadded places (units % tenTo places)

def signText (negative : Bool) : String := if negative then "-" else ""

def fixed (places : Nat) : Reading → String
  | .undefined => "nan"
  | .infinite negative => signText negative ++ "inf"
  | .finite negative magnitude =>
      signText negative ++
        pointed places (roundHalfEven (magnitude.num.natAbs * tenTo places) magnitude.den)

def dropTrailingZeros (digits : String) : String :=
  String.ofList (digits.toList.reverse.dropWhile (· == '0')).reverse

def decimalExponent (num den : Nat) : Int :=
  let guess : Int := (num.repr.length : Int) - den.repr.length
  let reached :=
    if 0 ≤ guess then den * tenTo guess.toNat ≤ num else den ≤ num * tenTo (-guess).toNat
  if reached then guess else guess - 1

/-- The leading `digits` digits of a positive fraction as a number, with the power of ten of the
first of them. Rounding up to one digit more moves the power instead. -/
def leadingDigits (digits num den : Nat) : Nat × Int :=
  let exponent := decimalExponent num den
  let shift := exponent - (digits - 1 : Nat)
  let units :=
    if 0 ≤ shift then roundHalfEven num (den * tenTo shift.toNat)
    else roundHalfEven (num * tenTo (-shift).toNat) den
  if units = tenTo digits then (tenTo (digits - 1), exponent + 1) else (units, exponent)

def exponentText (exponent : Int) : String :=
  (if exponent < 0 then "e-" else "e+") ++ digitsPadded 2 exponent.natAbs

/-- A whole part and the digits behind the point, without a point that nothing follows. -/
def joinPoint (whole rest : String) : String :=
  if rest.isEmpty then whole else whole ++ "." ++ rest

/-- The text with up to `digits` significant digits. It is positional for leading digits between
`10 ^ -4` and `10 ^ (digits - 1)`, and has no zeros at the end. -/
def significant (digits : Nat) : Reading → String
  | .undefined => "nan"
  | .infinite negative => signText negative ++ "inf"
  | .finite negative magnitude =>
      if magnitude.num = 0 then signText negative ++ "0"
      else
        let (units, exponent) := leadingDigits digits magnitude.num.natAbs magnitude.den
        let text := units.repr
        let body :=
          if exponent < -4 ∨ (digits : Int) ≤ exponent then
            joinPoint (text.take 1).toString (dropTrailingZeros (text.drop 1).toString) ++
              exponentText exponent
          else if exponent < 0 then
            joinPoint "0" ("".pushn '0' (-exponent - 1).toNat ++ dropTrailingZeros text)
          else
            let whole := exponent.toNat + 1
            joinPoint (text.take whole).toString (dropTrailingZeros (text.drop whole).toString)
        signText negative ++ body

end TourSearch.Numeric
