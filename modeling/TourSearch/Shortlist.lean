import TourSearch.Cut
import TourSearch.Heap

/-!
Shortlists of the best cuts found so far. A cut gets a number when it is found, and is better than
another one if its value is less, or its number if the values are equal. The worst cut stands in
front of a heap, and goes off a full list when a better one is found. It may be found again later,
and then gets a new number.
-/

namespace TourSearch

structure Numbered (α : Type) where
  cut : Cut α
  number : Nat

/-- Cuts with the worst one in front, their sets, and the number of the next one. -/
structure Shortlist (α : Type) where
  heap : Heap (Numbered α)
  kept : SortedSet VertexSet
  next : Nat

variable {α : Type} [Scalar α]

/-- Whether a cut goes off a list before another one. -/
def Numbered.worse (a b : Numbered α) : Bool :=
  if a.cut.value == b.cut.value then decide (b.number < a.number)
  else decide (b.cut.value < a.cut.value)

def Numbered.place (a : Numbered α) : List (Numbered α) → List (Numbered α)
  | [] => [a]
  | b :: rest => if b.worse a then a :: b :: rest else b :: place a rest

namespace Shortlist

def empty : Shortlist α := ⟨Heap.empty, SortedSet.empty, 0⟩

/-- Enters a cut into a list of at most `limit` cuts. A cut whose set is listed is passed over. -/
def enter (limit : Nat) (l : Shortlist α) (cut : Cut α) : Shortlist α :=
  if cut.side ∈ l.kept then l
  else
    let a : Numbered α := ⟨cut, l.next⟩
    if l.heap.size < limit then
      ⟨l.heap.push Numbered.worse a, l.kept.insert cut.side, l.next + 1⟩
    else
      match l.heap.min? with
      | none => { l with next := l.next + 1 }
      | some worst =>
          if worst.worse a then
            ⟨(l.heap.dropMin Numbered.worse).push Numbered.worse a,
              (l.kept.erase worst.cut.side).insert cut.side, l.next + 1⟩
          else { l with next := l.next + 1 }

def best (l : Shortlist α) : List (Cut α) :=
  (l.heap.toList.foldr Numbered.place []).map (·.cut)

end Shortlist

end TourSearch
