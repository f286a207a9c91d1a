import TourSearch.Cut
import TourSearch.Linear.Program
import TourSearch.Relaxation
import TourSearch.Restrictions
import TourSearch.Tour.Instance
import TourSearch.Trail

/-!
The linear relaxation of a tour: every city has degree 2, every stored cut is crossed at least
twice, and every edge lies between 0 and 1 or is fixed to one of them by the restrictions. The
bounds of the edges are kept from one solution to the next; whoever changes the restrictions tells
the relaxation, which then takes the bounds anew.
-/

namespace TourSearch

structure TourRelaxation (α : Type) where
  tours : Instance α
  restrictions : Restrictions
  cuts : List (Cut α)
  bounds : Option (List (Nat × Nat))
  solves : Nat

namespace TourRelaxation

variable {α : Type}

def ofInstance (tours : Instance α) (restrictions : Restrictions) : TourRelaxation α :=
  ⟨tours, restrictions, [], none, 0⟩

/-- Forgets the bounds, because a decision was applied or taken back. -/
def notice (r : TourRelaxation α) : TourRelaxation α := { r with bounds := none }

def allCities (r : TourRelaxation α) : VertexSet :=
  SortedSet.ofList ((List.range r.tours.cityCount).map Instance.city)

/-- Whether a set or its complement is one of the given sets, all of which describe rows. -/
def describes (all : VertexSet) (cuts : List (Cut α)) (side : VertexSet) : Bool :=
  cuts.any fun c => c.side == side || all.diff c.side == side

/-- Stores the cuts that are not yet there; a cut and its complement are the same row. Returns how
many were stored. -/
def addCuts (r : TourRelaxation α) (cuts : List (Cut α)) : Nat × TourRelaxation α :=
  let stored := cuts.foldl
    (fun stored cut =>
      if describes r.allCities stored cut.side then stored else stored ++ [cut]) r.cuts
  (stored.length - r.cuts.length, { r with cuts := stored })

def currentBounds (r : TourRelaxation α) : List (Nat × Nat) :=
  r.tours.pairs.map fun (i, j) => r.restrictions.bounds (Instance.edge i j)

/-- The bounds in use, taken from the restrictions if they were forgotten. -/
def takeBounds (r : TourRelaxation α) : List (Nat × Nat) × TourRelaxation α :=
  match r.bounds with
  | some bounds => (bounds, r)
  | none => (r.currentBounds, { r with bounds := some r.currentBounds })

def degreeRow (r : TourRelaxation α) (v : Nat) : Linear.Row where
  coefficients := r.tours.pairs.map fun (i, j) => if i = v ∨ j = v then 1 else 0
  sense := .equal
  bound := 2

def cutRow (r : TourRelaxation α) (cut : Cut α) : Linear.Row where
  coefficients := r.tours.pairs.map fun (i, j) =>
    if cut.contains (Instance.city i) != cut.contains (Instance.city j) then 1 else 0
  sense := .atLeast
  bound := 2

variable [Scalar α]

def exactCost? (r : TourRelaxation α) (i j : Nat) : Option Rat :=
  match r.tours.costBetween i j with
  | .ok cost => (Scalar.reading cost).toRat?
  | .error _ => none

def columns? (r : TourRelaxation α) (bounds : List (Nat × Nat)) : Option (List Linear.Column) :=
  (r.tours.pairs.zip bounds).mapM fun ((i, j), (lower, upper)) =>
    (r.exactCost? i j).map fun cost => ⟨cost, lower, upper⟩

def program? (r : TourRelaxation α) (bounds : List (Nat × Nat)) : Option Linear.Program :=
  (r.columns? bounds).map fun columns =>
    ⟨columns, (List.range r.tours.cityCount).map r.degreeRow ++ r.cuts.map r.cutRow⟩

/-- A value up to this size is left out of a solution. -/
def valueThreshold : α := Scalar.ratio 1 1000000000

def valuesOf (r : TourRelaxation α) (point : List Rat) : EdgeValues α :=
  ⟨(r.tours.pairs.zip point).filterMap fun ((i, j), x) =>
    let value : α := Scalar.ofRat x
    if valueThreshold < value then some (Instance.edge i j, value) else none⟩

def solveBy (method : Linear.Program → Option (List Rat)) (r : TourRelaxation α) :
    Answer α × TourRelaxation α :=
  let (bounds, r) := r.takeBounds
  let r := { r with solves := r.solves + 1 }
  let answer :=
    match r.program? bounds with
    | none => .infeasible
    | some program =>
        match method program with
        | none => .infeasible
        | some point => .solved (Scalar.ofRat (program.objective point)) (r.valuesOf point)
  (answer, r)

def act (r : TourRelaxation α) (a : Act) (m : Move) : Except Fault (TourRelaxation α) := do
  return { r with restrictions := ← Move.act a m r.restrictions }

/-- The effect of a call: decisions act on the restrictions, and a notice makes the relaxation
forget its bounds. -/
def perform (call : Call Move) : Action (TourRelaxation α) Unit := fun r =>
  match call with
  | .act a d =>
      match r.act a d.move with
      | .ok r => (.ok (), r)
      | .error fault => (.error fault, r)
  | .notify .. => (.ok (), r.notice)

end TourRelaxation

end TourSearch
