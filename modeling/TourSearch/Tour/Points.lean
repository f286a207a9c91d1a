import TourSearch.Fault
import TourSearch.Numeric.Numeral

/-!
Files of points. Every line with at least two fields is a point; its last two fields are the
coordinates, and whatever stands before them is a label.
-/

namespace TourSearch

open Numeric

def coordinate (field : List Char) : Except Fault Float :=
  let text := String.ofList field
  match decimal? text with
  | some x => .ok x
  | none => .error (.notANumber text)

def linePoint (line : List Char) : Except Fault (Option (Float × Float)) :=
  match (Text.fields line).reverse with
  | y :: x :: _ => do
      let x ← coordinate x
      let y ← coordinate y
      return some (x, y)
  | _ => .ok none

def readPoints (text : String) : Except Fault (List (Float × Float)) := do
  return (← (Text.lines text.toList).mapM linePoint).filterMap id

end TourSearch
