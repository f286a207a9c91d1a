/-!
Mappings that remember the order in which their keys were first given. Giving a key again keeps its
place and replaces its value.
-/

namespace TourSearch

/-- A mapping listed in the order of insertion. -/
structure Mapping (κ ν : Type) where
  entries : List (κ × ν)

namespace Mapping

variable {κ ν : Type} [DecidableEq κ]

def empty : Mapping κ ν := ⟨[]⟩

/-- Replaces the value of a key in its place, or appends the pair. -/
def putEntry (k : κ) (v : ν) : List (κ × ν) → List (κ × ν)
  | [] => [(k, v)]
  | (k', v') :: rest => if k' = k then (k, v) :: rest else (k', v') :: putEntry k v rest

def put (m : Mapping κ ν) (k : κ) (v : ν) : Mapping κ ν := ⟨putEntry k v m.entries⟩

def ofList (pairs : List (κ × ν)) : Mapping κ ν :=
  pairs.foldl (fun m (k, v) => m.put k v) empty

def get? (m : Mapping κ ν) (k : κ) : Option ν := (m.entries.find? fun e => e.1 = k).map (·.2)

def contains (m : Mapping κ ν) (k : κ) : Bool := m.entries.any fun e => e.1 = k

def erase (m : Mapping κ ν) (k : κ) : Mapping κ ν := ⟨m.entries.filter fun e => e.1 ≠ k⟩

def keys (m : Mapping κ ν) : List κ := m.entries.map (·.1)

def values (m : Mapping κ ν) : List ν := m.entries.map (·.2)

def size (m : Mapping κ ν) : Nat := m.entries.length

def isEmpty (m : Mapping κ ν) : Bool := m.entries.isEmpty

theorem keys_putEntry (k : κ) (v : ν) (l : List (κ × ν)) :
    (putEntry k v l).map (·.1) =
      if k ∈ l.map (·.1) then l.map (·.1) else l.map (·.1) ++ [k] := by
  induction l with
  | nil => simp [putEntry]
  | cons e rest ih =>
      obtain ⟨k', v'⟩ := e
      simp only [putEntry]
      split
      · rename_i h
        simp [h]
      · rename_i h
        have hne : ¬k = k' := fun heq => h heq.symm
        simp only [List.map_cons, ih, List.mem_cons, hne, false_or]
        split <;> simp

theorem keys_put (m : Mapping κ ν) (k : κ) (v : ν) :
    (m.put k v).keys = if k ∈ m.keys then m.keys else m.keys ++ [k] :=
  keys_putEntry k v m.entries

theorem get?_put (m : Mapping κ ν) (k k' : κ) (v : ν) :
    (m.put k v).get? k' = if k = k' then some v else m.get? k' := by
  obtain ⟨l⟩ := m
  show ((putEntry k v l).find? fun e => decide (e.1 = k')).map (·.2) =
    if k = k' then some v else (l.find? fun e => decide (e.1 = k')).map (·.2)
  induction l with
  | nil => by_cases hk : k = k' <;> simp [putEntry, hk]
  | cons e rest ih =>
      obtain ⟨a, b⟩ := e
      by_cases ha : a = k
      · subst ha
        by_cases hk : a = k' <;> simp [putEntry, hk]
      · by_cases hk : a = k'
        · subst hk
          have hne : ¬k = a := fun h => ha h.symm
          simp [putEntry, ha, hne]
        · simpa [putEntry, ha, hk] using ih

end Mapping

end TourSearch
