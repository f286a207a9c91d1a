import TourSearch.Sets.Precedence

/-!
Finite sets in their one written form: the list of members in order, each once. Two sets with the
same members are therefore equal (`SortedSet.ext_mem`).
-/

namespace TourSearch

open Precedence

structure SortedSet (α : Type) [Precedence α] where
  members : List α
  ordered : members.Pairwise fun a b => before a b = true

namespace SortedSet

variable {α : Type} [Precedence α]

theorem eq_of_members {s t : SortedSet α} (h : s.members = t.members) : s = t := by
  cases s
  cases t
  cases h
  rfl

instance [DecidableEq α] : DecidableEq (SortedSet α) := fun s t =>
  if h : s.members = t.members then isTrue (eq_of_members h)
  else isFalse fun heq => h (heq ▸ rfl)

instance : Membership α (SortedSet α) := ⟨fun s a => a ∈ s.members⟩

theorem mem_def {a : α} {s : SortedSet α} : a ∈ s ↔ a ∈ s.members := Iff.rfl

instance [DecidableEq α] (a : α) (s : SortedSet α) : Decidable (a ∈ s) :=
  inferInstanceAs (Decidable (a ∈ s.members))

def empty : SortedSet α := ⟨[], List.Pairwise.nil⟩

def isEmpty (s : SortedSet α) : Bool := s.members.isEmpty

def size (s : SortedSet α) : Nat := s.members.length

/-- Puts a member into an ordered list, unless it is there. -/
def place (a : α) : List α → List α
  | [] => [a]
  | b :: rest =>
      if before a b then a :: b :: rest
      else if before b a then b :: place a rest
      else b :: rest

theorem mem_place {a x : α} {l : List α} : x ∈ place a l ↔ x = a ∨ x ∈ l := by
  induction l with
  | nil => simp [place]
  | cons b rest ih =>
      simp only [place]
      split
      · simp
      · split
        · simp only [List.mem_cons, ih]
          constructor
          · rintro (h | h | h)
            · exact Or.inr (Or.inl h)
            · exact Or.inl h
            · exact Or.inr (Or.inr h)
          · rintro (h | h | h)
            · exact Or.inr (Or.inl h)
            · exact Or.inl h
            · exact Or.inr (Or.inr h)
        · rename_i hab hba
          have heq : a = b := connected (by simpa using hab) (by simpa using hba)
          simp [heq]

theorem pairwise_place (a : α) {l : List α} (h : l.Pairwise fun x y => before x y = true) :
    (place a l).Pairwise fun x y => before x y = true := by
  induction l with
  | nil => simp [place]
  | cons b rest ih =>
      rw [List.pairwise_cons] at h
      simp only [place]
      split
      · rename_i hab
        rw [List.pairwise_cons]
        refine ⟨fun x hx => ?_, List.pairwise_cons.mpr h⟩
        rcases List.mem_cons.mp hx with hx | hx
        · exact hx ▸ hab
        · exact trans hab (h.1 x hx)
      · split
        · rename_i hba
          rw [List.pairwise_cons]
          refine ⟨fun x hx => ?_, ih h.2⟩
          rcases mem_place.mp hx with hx | hx
          · exact hx ▸ hba
          · exact h.1 x hx
        · exact List.pairwise_cons.mpr h

def insert (a : α) (s : SortedSet α) : SortedSet α :=
    ⟨place a s.members, pairwise_place a s.ordered⟩

@[simp] theorem mem_insert {a x : α} {s : SortedSet α} : x ∈ s.insert a ↔ x = a ∨ x ∈ s :=
  mem_place

def filter (p : α → Bool) (s : SortedSet α) : SortedSet α :=
  ⟨s.members.filter p, s.ordered.filter p⟩

@[simp] theorem mem_filter {p : α → Bool} {x : α} {s : SortedSet α} :
    x ∈ s.filter p ↔ x ∈ s ∧ p x = true := List.mem_filter

def erase [DecidableEq α] (s : SortedSet α) (a : α) : SortedSet α := s.filter fun b => b != a

@[simp] theorem mem_erase [DecidableEq α] {a x : α} {s : SortedSet α} :
    x ∈ s.erase a ↔ x ∈ s ∧ x ≠ a := by simp [erase]

def diff [DecidableEq α] (s t : SortedSet α) : SortedSet α := s.filter fun b => decide (b ∉ t)

@[simp] theorem mem_diff [DecidableEq α] {x : α} {s t : SortedSet α} :
    x ∈ s.diff t ↔ x ∈ s ∧ x ∉ t := by simp [diff]

def ofList (l : List α) : SortedSet α := l.foldr insert empty

@[simp] theorem mem_ofList {x : α} {l : List α} : x ∈ ofList l ↔ x ∈ l := by
  induction l with
  | nil => simp [ofList, empty, mem_def]
  | cons a l ih =>
      have hcons : ofList (a :: l) = (ofList l).insert a := rfl
      rw [hcons, mem_insert, ih, List.mem_cons]

/-- A set is determined by its members. -/
theorem ext_mem {s t : SortedSet α} (h : ∀ a, a ∈ s ↔ a ∈ t) : s = t := by
  apply eq_of_members
  obtain ⟨l, hl⟩ := s
  obtain ⟨m, hm⟩ := t
  replace h : ∀ a, a ∈ l ↔ a ∈ m := h
  show l = m
  induction l generalizing m with
  | nil =>
      cases m with
      | nil => rfl
      | cons b m => exact absurd ((h b).mpr List.mem_cons_self) List.not_mem_nil
  | cons a l ih =>
      cases m with
      | nil => exact absurd ((h a).mp List.mem_cons_self) List.not_mem_nil
      | cons b m =>
          rw [List.pairwise_cons] at hl hm
          have hab : a = b := by
            rcases List.mem_cons.mp ((h a).mp List.mem_cons_self) with heq | ham
            · exact heq
            · rcases List.mem_cons.mp ((h b).mpr List.mem_cons_self) with heq | hbl
              · exact heq.symm
              · have hba := asymm (hl.1 b hbl)
                rw [hm.1 a ham] at hba
                contradiction
          subst hab
          have hrest : ∀ x, x ∈ l ↔ x ∈ m := by
            intro x
            constructor
            · intro hx
              rcases List.mem_cons.mp ((h x).mp (List.mem_cons_of_mem _ hx)) with heq | hxm
              · exact absurd heq.symm (ne_of_before (hl.1 x hx))
              · exact hxm
            · intro hx
              rcases List.mem_cons.mp ((h x).mpr (List.mem_cons_of_mem _ hx)) with heq | hxl
              · exact absurd heq.symm (ne_of_before (hm.1 x hx))
              · exact hxl
          rw [ih hl.2 m hm.2 hrest]

instance : Precedence (SortedSet α) where
  before s t := lexBefore s.members t.members
  irrefl s := lexBefore_irrefl s.members
  trans := lexBefore_trans
  connected h₁ h₂ := eq_of_members (lexBefore_connected h₁ h₂)

end SortedSet

end TourSearch
