import TourSearch.Linear.Program
import TourSearch.Numeric.Rounding

/-!
The simplex method for bounded variables, in exact arithmetic. Variables are shifted to a lower
bound of zero, and a variable at its upper bound is replaced by its distance from there, so that all
variables outside the basis are zero. Of several variables that could enter or leave the basis the
one with the least number does, which excludes cycles. A first phase drives out the artificial
variables of the rows; they then keep the upper bound zero.
-/

namespace TourSearch.Linear

structure BasicRow where
  basic : Nat
  value : Rat
  entries : Array Rat

/-- A basis: the rows, the reduced costs, the upper bounds of all variables (artificial ones last),
and which variables are measured from their upper bound. -/
structure Tableau where
  rows : Array BasicRow
  reduced : Array Rat
  uppers : Array (Option Rat)
  flipped : Array Bool

/-- What stops a growing variable: its own bound, or a row whose basic variable falls to zero or
rises to its bound. -/
inductive Blocker where
  | own
  | falls (row : Nat)
  | rises (row : Nat)
  deriving DecidableEq, Repr

namespace BasicRow

def entry (row : BasicRow) (j : Nat) : Rat := (row.entries[j]?).getD 0

def flip (row : BasicRow) (upper : Rat) : BasicRow :=
  { row with
    value := upper - row.value
    entries := row.entries.mapIdx fun j a => if j = row.basic then a else -a }

def solveFor (row : BasicRow) (j : Nat) : BasicRow :=
  let pivot := row.entry j
  { basic := j, value := row.value / pivot, entries := row.entries.map (· / pivot) }

def eliminate (row pivotRow : BasicRow) (j : Nat) : BasicRow :=
  let factor := row.entry j
  if factor = 0 then row
  else
    { row with
      value := row.value - factor * pivotRow.value
      entries := row.entries.zipWith (fun a b => a - factor * b) pivotRow.entries }

end BasicRow

namespace Tableau

def upper? (t : Tableau) (v : Nat) : Option Rat := (t.uppers[v]?).join

def isFlipped (t : Tableau) (v : Nat) : Bool := (t.flipped[v]?).getD false

def entering? (t : Tableau) : Option Nat :=
  (List.range t.reduced.size).find? fun j =>
    decide ((t.reduced[j]?).getD 0 < 0) && t.upper? j != some 0

/-- How far a variable can grow before a row stops it, with the number of the row's basic variable.
-/
def rowLimit? (t : Tableau) (j i : Nat) (row : BasicRow) : Option (Rat × Nat × Blocker) :=
  let a := row.entry j
  if 0 < a then some (row.value / a, row.basic, .falls i)
  else if a < 0 then
    (t.upper? row.basic).map fun upper => ((upper - row.value) / (-a), row.basic, .rises i)
  else none

def limits (t : Tableau) (j : Nat) : List (Rat × Nat × Blocker) :=
  ((t.upper? j).map fun upper => (upper, j, Blocker.own)).toList ++
    (t.rows.toList.zipIdx.filterMap fun (row, i) => t.rowLimit? j i row)

/-- The tightest limit, the one of the least variable among equals. -/
def tightest? : List (Rat × Nat × Blocker) → Option (Rat × Nat × Blocker)
  | [] => none
  | first :: rest =>
      some (rest.foldl
        (fun best next =>
          if next.1 < best.1 ∨ (next.1 = best.1 ∧ next.2.1 < best.2.1) then next else best)
        first)

def toggle (t : Tableau) (v : Nat) : Array Bool := t.flipped.modify v (!·)

def flipColumn (t : Tableau) (j : Nat) : Tableau :=
  let upper := (t.upper? j).getD 0
  { t with
    rows := t.rows.map fun row =>
      { row with
        value := row.value - row.entry j * upper
        entries := row.entries.modify j (-·) }
    reduced := t.reduced.modify j (-·)
    flipped := t.toggle j }

def flipBasic (t : Tableau) (i : Nat) : Tableau :=
  match t.rows[i]? with
  | none => t
  | some row =>
      let upper := (t.upper? row.basic).getD 0
      { t with rows := t.rows.modify i (·.flip upper), flipped := t.toggle row.basic }

def pivot (t : Tableau) (i j : Nat) : Tableau :=
  match t.rows[i]? with
  | none => t
  | some row =>
      let pivotRow := row.solveFor j
      let factor := (t.reduced[j]?).getD 0
      { t with
        rows := t.rows.mapIdx fun k other =>
          if k = i then pivotRow else other.eliminate pivotRow j
        reduced := t.reduced.zipWith (fun d b => d - factor * b) pivotRow.entries }

def grow (t : Tableau) (j : Nat) : Blocker → Tableau
  | .own => t.flipColumn j
  | .falls i => t.pivot i j
  | .rises i => (t.flipBasic i).pivot i j

/-- Improves the basis until no variable lowers the cost, or one does so without limit. -/
def optimise : Nat → Tableau → Option Tableau
  | 0, _ => none
  | steps + 1, t =>
      match t.entering? with
      | none => some t
      | some j =>
          match tightest? (t.limits j) with
          | none => none
          | some (_, _, blocker) => optimise steps (t.grow j blocker)

/-- Every basis with every choice of bounds: more than any run without cycles meets. -/
def stepBound (t : Tableau) : Nat := Numeric.twoTo (2 * t.uppers.size)

def reducedCosts (t : Tableau) (cost : Nat → Rat) : Array Rat :=
  let signed (v : Nat) : Rat := if t.isFlipped v then -(cost v) else cost v
  (Array.range t.reduced.size).map fun j =>
    t.rows.foldl (fun d row => d - signed row.basic * row.entry j) (signed j)

def level (t : Tableau) (v : Nat) : Rat :=
  let measured :=
    match t.rows.toList.find? (·.basic == v) with
    | some row => row.value
    | none => 0
  if t.isFlipped v then (t.upper? v).getD 0 - measured else measured

end Tableau

namespace Program

def surplusCount (p : Program) : Nat := (p.rows.filter fun row => row.sense == .atLeast).length

/-- The rows with their surplus variables, over variables shifted to a lower bound of zero, and with
a right-hand side that is not negative. A surplus variable that then has coefficient 1 is basic; the
other rows get an artificial variable. -/
def basicRows (p : Program) : Array BasicRow :=
  let columns := p.columns.length
  let width := columns + p.surplusCount
  let lowers := p.columns.map (·.lower)
  let rec go (i surplus : Nat) : List Row → List BasicRow
    | [] => []
    | row :: rest =>
        let value := row.bound - dot row.coefficients lowers
        let negate := decide (value < 0) || (row.sense == .atLeast && decide (value ≤ 0))
        let sign : Rat := if negate then -1 else 1
        let body := (row.coefficients ++ List.replicate (width - columns) 0).toArray
        let body :=
          if row.sense == .atLeast then body.modify (columns + surplus) fun _ => -1 else body
        let basic :=
          if row.sense == .atLeast && negate then columns + surplus else width + i
        { basic, value := sign * value, entries := body.map (sign * ·) } ::
          go (i + 1) (if row.sense == .atLeast then surplus + 1 else surplus) rest
  (go 0 0 p.rows).toArray

/-- The basis of the first phase, which minimises the sum of the artificial variables. -/
def firstTableau (p : Program) : Tableau :=
  let rows := p.basicRows
  let width := p.columns.length + p.surplusCount
  let artificial := rows.filter fun row => decide (width ≤ row.basic)
  { rows
    reduced := (Array.range width).map fun j =>
      artificial.foldl (fun d row => d - row.entry j) 0
    uppers := (p.columns.map fun c => some (c.upper - c.lower)).toArray ++
      Array.replicate (p.surplusCount + p.rows.length) none
    flipped := Array.replicate (width + p.rows.length) false }

/-- The basis of the second phase: the artificial variables may not leave zero. -/
def secondTableau (p : Program) (t : Tableau) : Tableau :=
  let width := p.columns.length + p.surplusCount
  let costs := (p.columns.map (·.cost)).toArray
  { t with
    uppers := t.uppers.mapIdx fun v upper => if width ≤ v then some 0 else upper
    reduced := t.reducedCosts fun v => (costs[v]?).getD 0 }

def artificialFree (p : Program) (t : Tableau) : Bool :=
  let width := p.columns.length + p.surplusCount
  t.rows.all fun row => decide (row.basic < width) || row.value == 0

def simplex (p : Program) : Option (List Rat) := do
  if p.columns.any fun c => decide (c.upper < c.lower) then none
  else
    let first := p.firstTableau
    let feasible ← first.optimise first.stepBound
    if p.artificialFree feasible then
      let second := p.secondTableau feasible
      let best ← second.optimise second.stepBound
      return p.columns.zipIdx.map fun (c, v) => c.lower + best.level v
    else none

end Program

end TourSearch.Linear
