import TourSearch.Search.Solver
import TourSearch.Search.Watch

/-!
Searches over a relaxation that answers from a table. A rule of the table applies when the edges it
names are fixed or forbidden and enough cuts and restrictions are in force; the first rule that
applies gives the answer, and lets an amount of time pass. No rule means infeasible. The stage keeps
a record of what was asked and of which nodes were visited.
-/

namespace TourSearch

inductive RuleAnswer (α : Type) where
  | fails (text : String)
  | infeasible
  | solved (objective : α) (values : EdgeValues α)

structure ScriptRule (α : Type) where
  fixed : List Edge
  forbidden : List Edge
  cuts : Int
  depth : Int
  elapse : α
  answer : RuleAnswer α

/-- Which of the offered cuts are stored: those whose sets are new, all, or none. -/
inductive Acceptance where
  | dedupe
  | all
  | reject
  deriving DecidableEq, Repr

/-- The table, the treatment of cuts, and the nodes to close after a node. -/
structure Script (α : Type) where
  rules : List (ScriptRule α)
  acceptance : Acceptance
  closing : List (Int × List Int)

structure Visit (α : Type) where
  id : Int
  status : NodeStatus
  lowerBound : α
  lpValue : α

/-- A relaxation that was solved: under which restrictions, and with how many cuts. -/
structure Seen where
  restrictions : Restrictions
  cuts : Nat

structure Stage (α : Type) where
  clock : α
  restrictions : Restrictions
  cuts : List (Cut α)
  watch : Watch
  seen : List Seen
  visits : List (Visit α)

namespace Stage

variable {α : Type} [Scalar α]

def initial (watch : Watch) : Stage α := ⟨Scalar.zero, Restrictions.empty, [], watch, [], []⟩

/-- Forgets the record and keeps the rest. -/
def fresh (s : Stage α) : Stage α :=
  { s with watch := { s.watch with events := [] }, seen := [], visits := [] }

def act (s : Stage α) (a : Act) (m : Move) : Except Fault (Stage α) := do
  return { s with restrictions := ← Move.act a m s.restrictions }

def hear (s : Stage α) (name : String) (a : Act) (m : Move) : Except Fault (Stage α) := do
  return { s with watch := ← s.watch.hear name a m.shown }

/-- The effect of a call. A call that fails changes nothing. -/
def perform (call : Call Move) : Action (Stage α) Unit := fun s =>
  let result :=
    match call with
    | .act a d => s.act a d.move
    | .notify name a d => s.hear name a d.move
  match result with
  | .ok s => (.ok (), s)
  | .error fault => (.error fault, s)

end Stage

namespace Script

variable {α : Type} [Scalar α]

def applies (s : Stage α) (rule : ScriptRule α) : Bool :=
  rule.fixed.all s.restrictions.isFixed && rule.forbidden.all s.restrictions.isForbidden &&
    decide (rule.cuts ≤ s.cuts.length) && decide (rule.depth ≤ s.restrictions.size)

def answer : RuleAnswer α → Except Fault (Answer α)
  | .fails text => .error (.relaxationFailed text)
  | .infeasible => .ok .infeasible
  | .solved objective values => .ok (.solved objective values)

def solve (script : Script α) : Action (Stage α) (Answer α) := fun s =>
  let s := { s with seen := s.seen ++ [⟨s.restrictions, s.cuts.length⟩] }
  match script.rules.find? (applies s) with
  | none => (.ok .infeasible, s)
  | some rule => (answer rule.answer, { s with clock := s.clock + rule.elapse })

def addCuts (script : Script α) (cuts : List (Cut α)) : Action (Stage α) Nat := fun s =>
  let taken :=
    match script.acceptance with
    | .reject => []
    | .all => cuts
    | .dedupe => cuts.filter fun cut => !s.cuts.any (·.same cut)
  (.ok taken.length, { s with cuts := s.cuts ++ taken })

/-- Closes nodes by their ids, up to the first unknown one. -/
def closeAll (t : Tree α Move) : List Int → Except Fault Unit × Tree α Move
  | [] => (.ok (), t)
  | id :: rest =>
      match t.lookup? id with
      | some h => closeAll (t.markProcessed h .fathomed) rest
      | none => (.error (.noState "status"), t)

def afterNode (script : Script α) (h : Handle) : Action (Tree α Move × Stage α) Unit :=
  fun (t, s) =>
    let n := t.node h
    let s := { s with visits := s.visits ++ [⟨n.id, n.status, n.lowerBound, n.lpValue⟩] }
    let (result, t) := closeAll t ((script.closing.lookup n.id).getD [])
    (result, t, s)

inductive Strategy (α : Type) where
  | none
  | edges (b : EdgeBranching α)

def propose (strategy : Strategy α) (n : Node α Move) (values : EdgeValues α) :
    Action (Stage α) (List (Candidate α Move)) := fun s =>
  match strategy with
  | .none => (.ok [], s)
  | .edges b => (b.candidates n.id.toNat values, s)

def problem (script : Script α) (strategy : Strategy α) : Problem α Move (Stage α) where
  now := Stage.clock
  solve := script.solve
  addCuts := script.addCuts
  perform := Stage.perform
  candidates := propose strategy
  afterNode := script.afterNode

end Script

end TourSearch
