import TourSearch.Mapping
import TourSearch.Trail

/-!
Listeners and decisions that leave a record of the calls made to them, for watching a trail at work.
A listener, and a probing decision, can be told to fail at one kind of act.
-/

namespace TourSearch

inductive Event where
  | acted (a : Act) (probe : String)
  | heard (listener : String) (a : Act) (label : String)
  deriving DecidableEq, Repr

/-- The listeners, each with the act at which it fails, and the calls seen so far. -/
structure Watch where
  listeners : Mapping String (Option Act)
  events : List Event

namespace Watch

def empty : Watch := ⟨Mapping.empty, []⟩

def define (w : Watch) (name : String) (fails : Option Act) : Watch :=
  { w with listeners := w.listeners.put name fails }

def record (w : Watch) (event : Event) : Watch := { w with events := w.events ++ [event] }

def hear (w : Watch) (name : String) (a : Act) (label : String) : Except Fault Watch :=
  if (w.listeners.get? name).join = some a then .error (.listenerFailed name a)
  else .ok (w.record (.heard name a label))

end Watch

/-- A decision about an edge, or a probe that only records what happens to it. -/
inductive Deed where
  | edge (m : Move)
  | probe (name : String) (refuses : Option Act)
  deriving DecidableEq, Repr

namespace Deed

def shown : Deed → String
  | .edge m => m.shown
  | .probe .. => "<Probe>"

def label : Deed → String
  | .edge m => m.shown
  | .probe name _ => name

end Deed

/-- Restrictions, which may be missing, and a watch over the calls. -/
structure Workbench where
  restrictions : Option Restrictions
  watch : Watch

namespace Workbench

def actOn (w : Workbench) (a : Act) : Deed → Except Fault Workbench
  | .edge m =>
      match w.restrictions with
      | none => .error (.noState (Move.changeName a m))
      | some r => do return { w with restrictions := some (← Move.act a m r) }
  | .probe name refuses =>
      if refuses = some a then .error (.refused a name)
      else .ok { w with watch := w.watch.record (.acted a name) }

/-- The effect of a call. A call that fails changes nothing. -/
def perform : Call Deed → Action Workbench Unit
  | .act a d => fun w =>
      match w.actOn a d.move with
      | .ok w => (.ok (), w)
      | .error fault => (.error fault, w)
  | .notify name a d => fun w =>
      match w.watch.hear name a d.move.label with
      | .ok watch => (.ok (), { w with watch })
      | .error fault => (.error fault, w)

end Workbench

end TourSearch
