import TourSearch.Numeric.Reading
import TourSearch.Text.CharClass

/-!
Numbers written as text. A numeral has an optional sign, digits of any script with single
underscores between them, and for decimals a point and a power of ten; the words for an infinity
and for no number are read in any mixture of capitals. White space around a numeral is ignored.
The value of a decimal is the nearest double.
-/

namespace TourSearch.Numeric

open TourSearch.Text

def plainDigit (c : Char) : Char :=
  match digit? c with
  | some d => Char.ofNat (0x30 + d)
  | none => c

/-- The characters without their underscores, if each of these stands between two digits. -/
def withoutUnderscores : List Char → Option (List Char)
  | [] => some []
  | '_' :: _ => none
  | c :: '_' :: next :: rest =>
      if c.isDigit && next.isDigit then
        (withoutUnderscores (next :: rest)).map (c :: ·)
      else none
  | c :: rest => (withoutUnderscores rest).map (c :: ·)

def splitSign : List Char → Bool × List Char
  | '-' :: rest => (true, rest)
  | '+' :: rest => (false, rest)
  | cs => (false, cs)

def digitsValue (cs : List Char) : Nat :=
  cs.foldl (fun n c => 10 * n + (c.toNat - 0x30)) 0

def splitDigits (cs : List Char) : List Char × List Char :=
  (cs.takeWhile Char.isDigit, cs.dropWhile Char.isDigit)

def normalNumeral (text : String) : Option (List Char) :=
  withoutUnderscores ((trimBlank text.toList).map plainDigit)

def integer? (text : String) : Option Int := do
  let (negative, body) := splitSign (← normalNumeral text)
  if body.isEmpty || !body.all Char.isDigit then none
  else
    let n : Int := digitsValue body
    some (if negative then -n else n)

/-- The double nearest to `significand * 10 ^ power`. Far outside the range of doubles the power
decides alone. -/
def scientific (significand : Nat) (power : Int) : Float :=
  if significand = 0 then 0.0
  else
    let magnitude := power + significand.repr.length
    if 400 < magnitude then Float.ofBits 0x7ff0000000000000
    else if magnitude < -400 then 0.0
    else if 0 ≤ power then nearestFloat (mkRat (significand * tenTo power.toNat : Nat) 1)
    else nearestFloat (mkRat significand (tenTo (-power).toNat))

/-- The power of ten behind a significand: nothing, or a mark, a sign and digits up to the end. -/
def exponent? : List Char → Option Int
  | [] => some 0
  | c :: rest =>
      if c == 'e' || c == 'E' then
        let (negative, body) := splitSign rest
        if body.isEmpty || !body.all Char.isDigit then none
        else
          let n : Int := digitsValue body
          some (if negative then -n else n)
      else none

def unsignedDecimal? (cs : List Char) : Option Float :=
  let word := (String.ofList cs).map Char.toLower
  if word == "inf" || word == "infinity" then some (Float.ofBits 0x7ff0000000000000)
  else if word == "nan" then some (Float.ofBits 0x7ff8000000000000)
  else
    let (whole, rest) := splitDigits cs
    let (places, rest) :=
      match rest with
      | '.' :: behind => splitDigits behind
      | _ => ([], rest)
    if whole.isEmpty && places.isEmpty then none
    else do
      let power ← exponent? rest
      some (scientific (digitsValue (whole ++ places)) (power - places.length))

def decimal? (text : String) : Option Float := do
  let (negative, body) := splitSign (← normalNumeral text)
  let magnitude ← unsignedDecimal? body
  some (if negative then -magnitude else magnitude)

end TourSearch.Numeric
