/-!
Binary heaps. The entries stand in an array, the children of place `i` at places `2 * i + 1` and
`2 * i + 2`, and no entry comes before its parent in the order of the test. The least entry is at
place 0.
-/

namespace TourSearch

/-- A binary heap; `items[0]` is its least entry. -/
structure Heap (α : Type) where
  items : Array α

namespace Heap

variable {α : Type}

def empty : Heap α := ⟨#[]⟩

def size (h : Heap α) : Nat := h.items.size

def isEmpty (h : Heap α) : Bool := h.items.isEmpty

def toList (h : Heap α) : List α := h.items.toList

/-- Moves the entry at a place up while it comes before its parent. -/
def siftUp (before : α → α → Bool) (items : Array α) (i : Nat) (hi : i < items.size) : Array α :=
  if h0 : i = 0 then items
  else
    let parent := (i - 1) / 2
    have hparent : parent < items.size := by omega
    if before items[i] items[parent] then
      siftUp before (items.swap i parent) parent (by simpa using hparent)
    else items
termination_by i
decreasing_by omega

def firstChild? (before : α → α → Bool) (items : Array α) (i : Nat) :
    Option { c : Nat // i < c ∧ c < items.size } :=
  if hl : 2 * i + 1 < items.size then
    if hr : 2 * i + 2 < items.size then
      if before items[2 * i + 2] items[2 * i + 1] then some ⟨2 * i + 2, by omega, hr⟩
      else some ⟨2 * i + 1, by omega, hl⟩
    else some ⟨2 * i + 1, by omega, hl⟩
  else none

/-- Moves the entry at a place down while one of its children comes before it. -/
def siftDown (before : α → α → Bool) (items : Array α) (i : Nat) : Array α :=
  match firstChild? before items i with
  | none => items
  | some ⟨c, hic, hc⟩ =>
      have hi : i < items.size := by omega
      if before items[c] items[i] then siftDown before (items.swap i c) c else items
termination_by items.size - i
decreasing_by simp only [Array.size_swap]; omega

def push (before : α → α → Bool) (h : Heap α) (a : α) : Heap α :=
  ⟨siftUp before (h.items.push a) h.items.size (by simp)⟩

def min? (h : Heap α) : Option α := h.items[0]?

def dropMin (before : α → α → Bool) (h : Heap α) : Heap α :=
  if hpos : 0 < h.items.size then
    ⟨siftDown before (h.items.swap 0 (h.items.size - 1)).pop 0⟩
  else h

def arrange (before : α → α → Bool) : Nat → Array α → Array α
  | 0, items => items
  | i + 1, items => arrange before i (siftDown before items i)

/-- The heap of the entries of a list. The entries in the second half of the list have nothing below
them and stay where they are at first. -/
def ofList (before : α → α → Bool) (l : List α) : Heap α :=
  ⟨arrange before (l.length / 2) l.toArray⟩

end Heap

end TourSearch
