import TourSearch.Decision
import TourSearch.Tree

/-!
The trail of a search: the decisions that are applied at the moment, in order. To move to another
node the decisions that its path does not share are taken back, the last one first, and those that
are missing are applied. Every act on a decision is followed by one notice to each registered
listener. A move is a list of calls (`Trail.plan`), carried out up to the first that fails; after a
failure the trail is inconsistent and refuses to move.
-/

namespace TourSearch

/-- A call that a move makes: an act on a decision, or the notice of it to a listener. -/
inductive Call (μ : Type) where
  | act (a : Act) (d : Decision μ)
  | notify (listener : String) (a : Act) (d : Decision μ)
  deriving DecidableEq, Repr

structure Stop (μ : Type) where
  node : Handle
  path : List (Decision μ)

structure Trail (μ : Type) where
  root : Stop μ
  current : Stop μ
  history : List (Decision μ)
  listeners : List String
  consistent : Bool

namespace Trail

variable {μ σ : Type}

def start (root : Stop μ) : Trail μ := ⟨root, root, [], [], true⟩

def depth (t : Trail μ) : Nat := t.history.length

def addListener (t : Trail μ) (name : String) : Trail μ :=
  { t with listeners := t.listeners ++ [name] }

/-- Takes back the first registration of a listener, if there is one. -/
def removeListener (t : Trail μ) (name : String) : Trail μ :=
  { t with listeners := t.listeners.erase name }

def callsFor (listeners : List String) (a : Act) (d : Decision μ) : List (Call μ) :=
  .act a d :: listeners.map fun name => .notify name a d

/-- The calls that keep `kept` decisions of the history, take back the others and then apply the
rest of a path. -/
def plan (listeners : List String) (history path : List (Decision μ)) (kept : Nat) :
    List (Call μ) :=
  (history.drop kept).reverse.flatMap (callsFor listeners .revert) ++
    (path.drop (min kept history.length)).flatMap (callsFor listeners .apply)

/-- What a call does to the history: a decision is on it as soon as it is being applied, and off it
as soon as it is being taken back. -/
def note (t : Trail μ) : Call μ → Trail μ
  | .act .apply d => { t with history := t.history ++ [d] }
  | .act .revert _ => { t with history := t.history.dropLast }
  | .notify .. => t

/-- Carries out calls up to the first that fails. -/
def carryOut (perform : Call μ → Action σ Unit) :
    List (Call μ) → Trail μ → σ → Except Fault Unit × Trail μ × σ
  | [], t, s => (.ok (), t, s)
  | call :: rest, t, s =>
      let t := t.note call
      match (perform call).runOn s with
      | (.ok _, s) => carryOut perform rest t s
      | (.error fault, s) => (.error fault, { t with consistent := false }, s)

def moveTo (perform : Call μ → Action σ Unit) (stop : Stop μ) (calls : List (Call μ))
    (t : Trail μ) (s : σ) : Except Fault Unit × Trail μ × σ :=
  if t.consistent then
    match carryOut perform calls t s with
    | (.ok _, t, s) => (.ok (), { t with current := stop }, s)
    | failed => failed
  else (.error .inconsistentTrail, t, s)

def transition (perform : Call μ → Action σ Unit) (stop : Stop μ) (t : Trail μ) (s : σ) :
    Except Fault Unit × Trail μ × σ :=
  let kept := Decision.commonPrefixLength t.current.path stop.path
  moveTo perform stop (plan t.listeners t.history stop.path kept) t s

/-- Takes back every applied decision and returns to the root. -/
def restore (perform : Call μ → Action σ Unit) (t : Trail μ) (s : σ) :
    Except Fault Unit × Trail μ × σ :=
  moveTo perform t.root (plan t.listeners t.history [] 0) t s

def shown (id : Int) (t : Trail μ) : String :=
  "<BranchAndPriceStateManager node=" ++ toString id ++ " depth=" ++ toString t.depth ++
    " listeners=" ++ toString t.listeners.length ++ ">"

end Trail

end TourSearch
