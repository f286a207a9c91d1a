import TourSearch.Proofs.Heap
import TourSearch.Proofs.Separation.Ranking
import Mathlib

/-!
A shortlist lists what a sorted list would that is cut off after every insertion (`Holds.enter`).
The numbers of the listed cuts are in the order of discovery and less than the next one, whatever
numbers were given to cuts that are gone. Of equal values the later one is therefore worse, as in
the sorted list it is placed behind the others. Cuts that are entered one after the other leave the
first ones by value of those that differ (`best_after`), and the set of a cut that was found and is
not listed does not come back (`notMem_sides_after`).
-/

namespace TourSearch

open Numeric

variable {w : VertexSet → Rat} {cut : Cut Extended} {limit : Nat}

namespace Numbered

variable {a b : Numbered Extended} {entries : List (Numbered Extended)}

def HasValue (w : VertexSet → Rat) (a : Numbered Extended) : Prop :=
  a.cut.value = .finite (w a.cut.side)

/-- The key by which cuts are compared, the best one having the least. -/
def key (w : VertexSet → Rat) (a : Numbered Extended) : Rat ×ₗ Nat :=
  toLex (w a.cut.side, a.number)

theorem worse_iff (ha : a.HasValue w) (hb : b.HasValue w) :
    a.worse b = true ↔ b.key w < a.key w := by
  have hsame : (a.cut.value == b.cut.value) = true ↔ w a.cut.side = w b.cut.side := by
    rw [Extended.beq_iff, ha, hb]
    simp [Extended.Same]
  have hless : b.cut.value < a.cut.value ↔ w b.cut.side < w a.cut.side := by
    rw [ha, hb, Extended.finite_lt_finite]
  rw [key, key, Prod.Lex.toLex_lt_toLex, worse]
  split
  · rename_i heq
    simp [hsame.mp heq]
  · rename_i hne
    have hne' : w b.cut.side ≠ w a.cut.side := fun h => hne (hsame.mpr h.symm)
    simp [hless, hne']

theorem orders_worse : Heap.Orders worse (HasValue w) where
  asymm := by
    intro x y hx hy h
    rw [Bool.eq_false_iff, Ne, worse_iff hy hx]
    exact lt_asymm ((worse_iff hx hy).mp h)
  trans := by
    intro x y z hx hy hz hxy hyz
    rw [Bool.eq_false_iff, Ne, worse_iff, not_lt] at * <;> try assumption
    exact le_trans hyz hxy

theorem perm_place (a : Numbered Extended) (entries : List (Numbered Extended)) :
    (a.place entries).Perm (a :: entries) := by
  induction entries with
  | nil => exact List.Perm.refl _
  | cons b entries ih =>
      rw [place]
      split
      · exact List.Perm.refl _
      · exact (ih.cons b).trans (List.Perm.swap a b entries)

def Sorted (w : VertexSet → Rat) (entries : List (Numbered Extended)) : Prop :=
  entries.Pairwise fun a b => a.key w < b.key w

theorem Sorted.place (h : Sorted w entries) (ha : a.HasValue w)
    (hvalued : ∀ b ∈ entries, b.HasValue w) (hne : ∀ b ∈ entries, b.key w ≠ a.key w) :
    Sorted w (a.place entries) := by
  induction entries with
  | nil => exact List.pairwise_singleton _ _
  | cons b entries ih =>
      obtain ⟨hb, hrest⟩ := List.pairwise_cons.mp h
      rw [Numbered.place]
      by_cases hworse : b.worse a = true
      · rw [if_pos hworse]
        rw [worse_iff (hvalued b List.mem_cons_self) ha] at hworse
        refine List.pairwise_cons.mpr ⟨fun c hc => ?_, h⟩
        rcases List.mem_cons.mp hc with rfl | hc
        · exact hworse
        · exact hworse.trans (hb c hc)
      · rw [if_neg hworse]
        rw [worse_iff (hvalued b List.mem_cons_self) ha, not_lt] at hworse
        have hlt := lt_of_le_of_ne hworse (hne b List.mem_cons_self)
        refine List.pairwise_cons.mpr ⟨fun c hc => ?_, ih hrest
          (fun c hc => hvalued c (List.mem_cons_of_mem b hc))
          fun c hc => hne c (List.mem_cons_of_mem b hc)⟩
        rcases List.mem_cons.mp ((perm_place a entries).mem_iff.mp hc) with rfl | hc
        · exact hlt
        · exact hb c hc

theorem Sorted.eq_of_perm {entries' : List (Numbered Extended)} (h : Sorted w entries)
    (h' : Sorted w entries') (hperm : entries.Perm entries') : entries = entries' :=
  hperm.eq_of_pairwise (fun _ _ _ _ hlt hgt => absurd (hlt.trans hgt) (lt_irrefl _)) h h'

theorem Sorted.foldr_place {l : List (Numbered Extended)} (h : Sorted w entries)
    (hvalued : ∀ b ∈ entries, b.HasValue w) (hperm : entries.Perm l) :
    l.foldr Numbered.place [] = entries := by
  have hkeys : (l.map (key w)).Nodup := (hperm.map _).nodup_iff.mp
    ((List.pairwise_map.mpr h).imp ne_of_lt)
  have hl : ∀ b ∈ l, b.HasValue w := fun b hb => hvalued b (hperm.mem_iff.mpr hb)
  have hplace : ∀ l : List (Numbered Extended), (l.map (key w)).Nodup → (∀ b ∈ l, b.HasValue w) →
      Sorted w (l.foldr Numbered.place []) ∧ (l.foldr Numbered.place []).Perm l := by
    intro l
    induction l with
    | nil => exact fun _ _ => ⟨List.Pairwise.nil, List.Perm.refl _⟩
    | cons a l ih =>
        intro hkeys hl
        rw [List.map_cons, List.nodup_cons] at hkeys
        obtain ⟨hsorted, hperm⟩ := ih hkeys.2 fun b hb => hl b (List.mem_cons_of_mem a hb)
        refine ⟨hsorted.place (hl a List.mem_cons_self)
          (fun b hb => hl b (List.mem_cons_of_mem a (hperm.mem_iff.mp hb))) fun b hb heq => ?_,
          (perm_place a _).trans (hperm.cons a)⟩
        exact hkeys.1 (heq ▸ List.mem_map_of_mem (hperm.mem_iff.mp hb))
  obtain ⟨hsorted, hperm'⟩ := hplace l hkeys hl
  exact hsorted.eq_of_perm h (hperm'.trans hperm.symm)

/-- Of equal values the one found later is worse. -/
theorem worse_iff_of_number_lt (ha : a.HasValue w) (hb : b.HasValue w) (hlt : b.number < a.number) :
    b.worse a = true ↔ a.cut.value < b.cut.value := by
  rw [worse_iff hb ha, ha, hb, Extended.finite_lt_finite, key, key, Prod.Lex.toLex_lt_toLex]
  simp [not_lt.mpr hlt.le]

theorem map_cut_place (ha : a.HasValue w) (hvalued : ∀ b ∈ entries, b.HasValue w)
    (hlast : ∀ b ∈ entries, b.number < a.number) :
    (a.place entries).map (·.cut) = Separator.insertByValue a.cut (entries.map (·.cut)) := by
  induction entries with
  | nil => rfl
  | cons b entries ih =>
      have hworse := worse_iff_of_number_lt ha (hvalued b List.mem_cons_self)
        (hlast b List.mem_cons_self)
      rw [place, List.map_cons, Separator.insertByValue]
      simp only [hworse]
      split
      · rfl
      · rw [List.map_cons, ih (fun c hc => hvalued c (List.mem_cons_of_mem b hc))
          fun c hc => hlast c (List.mem_cons_of_mem b hc)]

end Numbered

namespace Shortlist

open Separator Numbered

variable {l : Shortlist Extended} {entries : List (Numbered Extended)}

/-- A shortlist of at most `limit` cuts lists the given entries, the best one first. -/
structure Holds (w : VertexSet → Rat) (limit : Nat) (l : Shortlist Extended)
    (entries : List (Numbered Extended)) : Prop where
  valid : l.heap.Valid worse (HasValue w)
  perm : entries.Perm l.heap.toList
  sorted : Sorted w entries
  few : entries.length ≤ limit
  numbers : ∀ a ∈ entries, a.number < l.next
  different : (entries.map (·.cut.side)).Nodup
  sides : ∀ s, s ∈ l.kept ↔ s ∈ entries.map (·.cut.side)

theorem holds_empty : Holds w limit Shortlist.empty [] :=
  ⟨Heap.valid_empty, List.Perm.refl _, List.Pairwise.nil, Nat.zero_le _, by simp, List.nodup_nil,
    fun _ => Iff.rfl⟩

theorem Holds.hasValue (h : Holds w limit l entries) {a : Numbered Extended} (ha : a ∈ entries) :
    a.HasValue w := h.valid.mem (h.perm.mem_iff.mp ha)

theorem Holds.best_eq (h : Holds w limit l entries) : l.best = entries.map (·.cut) := by
  rw [best, h.sorted.foldr_place (fun _ => h.hasValue) h.perm]

theorem Holds.size_eq (h : Holds w limit l entries) : l.heap.size = entries.length := by
  rw [h.perm.length_eq]
  simp [Heap.size, Heap.toList]

theorem Holds.any_same_iff (h : Holds w limit l entries) (cut : Cut Extended) :
    ((entries.map (·.cut)).any (·.same cut)) = true ↔ cut.side ∈ l.kept := by
  rw [Separator.any_same_iff, h.sides, List.map_map]
  rfl

theorem Holds.key_le_last {init : List (Numbered Extended)} {last a : Numbered Extended}
    (h : Holds w limit l (init ++ [last])) (ha : a ∈ init ++ [last]) : a.key w ≤ last.key w := by
  rcases List.mem_append.mp ha with hinit | heq
  · exact ((List.pairwise_append.mp h.sorted).2.2 a hinit last List.mem_cons_self).le
  · rw [List.mem_singleton.mp heq]

/-- The last entry stands in front of the heap. -/
theorem Holds.min?_eq {init : List (Numbered Extended)} {last : Numbered Extended}
    (h : Holds w limit l (init ++ [last])) : l.heap.min? = some last := by
  cases hmin : l.heap.min? with
  | none =>
      have hnil := h.perm.length_eq
      rw [Heap.min?_eq_none_iff.mp hmin] at hnil
      simp at hnil
  | some worst =>
      have hmem : worst ∈ init ++ [last] :=
        h.perm.mem_iff.mpr ((Heap.toList_dropMin worse hmin).mem_iff.mpr List.mem_cons_self)
      have hlast : last ∈ init ++ [last] := by simp
      rcases List.mem_append.mp hmem with hinit | heq
      · have hlt := (List.pairwise_append.mp h.sorted).2.2 worst hinit last (by simp)
        have hle := h.valid.min?_le orders_worse hmin (h.perm.mem_iff.mp hlast)
        rw [Bool.eq_false_iff, Ne, worse_iff (h.hasValue hlast) (h.hasValue hmem)] at hle
        exact absurd hlt hle
      · rw [List.mem_singleton.mp heq]

/-- A cut with a new set joins entries that leave room for it. -/
theorem Holds.join {heap : Heap (Numbered Extended)} {kept : SortedSet VertexSet} {next : Nat}
    (h : Holds w limit ⟨heap, kept, next⟩ entries) (hroom : entries.length < limit)
    (hcut : cut.value = .finite (w cut.side)) (hnew : cut.side ∉ kept) :
    Holds w limit ⟨heap.push worse ⟨cut, next⟩, kept.insert cut.side, next + 1⟩
      (Numbered.place ⟨cut, next⟩ entries) := by
  have ha : HasValue w (⟨cut, next⟩ : Numbered Extended) := hcut
  have hperm := perm_place ⟨cut, next⟩ entries
  refine ⟨h.valid.push orders_worse ha,
    hperm.trans ((h.perm.cons _).trans (Heap.toList_push _ _ _).symm),
    h.sorted.place ha (fun _ => h.hasValue) fun b hb heq => ?_, ?_, fun b hb => ?_, ?_, fun s => ?_⟩
  · have hnumber := congrArg (fun k => (ofLex k).2) heq
    exact absurd (h.numbers b hb) (Nat.not_lt.mpr hnumber.ge)
  · rw [hperm.length_eq]
    exact hroom
  · rcases List.mem_cons.mp (hperm.mem_iff.mp hb) with rfl | hb
    · exact Nat.lt_succ_self next
    · exact Nat.lt_succ_of_lt (h.numbers b hb)
  · rw [(hperm.map _).nodup_iff, List.map_cons, List.nodup_cons, ← h.sides]
    exact ⟨hnew, h.different⟩
  · rw [SortedSet.mem_insert, h.sides, (hperm.map _).mem_iff, List.map_cons, List.mem_cons]

/-- Without the entry in front, the others are held. -/
theorem Holds.drop {init : List (Numbered Extended)} {last : Numbered Extended}
    (h : Holds w limit l (init ++ [last])) :
    Holds w limit ⟨l.heap.dropMin worse, l.kept.erase last.cut.side, l.next⟩ init := by
  have hdrop := Heap.toList_dropMin worse h.min?_eq
  have hdifferent := h.different
  rw [List.map_append, List.nodup_append] at hdifferent
  refine ⟨h.valid.dropMin orders_worse, ?_, (List.pairwise_append.mp h.sorted).1, ?_,
    fun a ha => h.numbers a (List.mem_append_left _ ha), hdifferent.1, fun s => ?_⟩
  · exact ((List.perm_append_singleton last init).symm.trans (h.perm.trans hdrop)).cons_inv
  · have hfew := h.few
    rw [List.length_append] at hfew
    omega
  · rw [SortedSet.mem_erase, h.sides, List.map_append, List.mem_append]
    refine ⟨fun hs => hs.1.resolve_right fun hlast => hs.2 (List.mem_singleton.mp hlast),
      fun hs => ⟨Or.inl hs, fun heq => ?_⟩⟩
    exact hdifferent.2.2 s hs last.cut.side (by simp) heq

/-- Entering a cut lists what a sorted list would. -/
theorem Holds.enter (h : Holds w limit l entries) (hcut : cut.value = .finite (w cut.side))
    (hlimit : 0 < limit) : ∃ entries', Holds w limit (l.enter limit cut) entries' ∧
      entries'.map (·.cut) = shortlist limit (entries.map (·.cut)) cut := by
  have ha : HasValue w (⟨cut, l.next⟩ : Numbered Extended) := hcut
  have hvalued : ∀ b ∈ entries, b.HasValue w := fun _ => h.hasValue
  by_cases hkept : cut.side ∈ l.kept
  · refine ⟨entries, ?_, ?_⟩
    · rwa [Shortlist.enter, if_pos hkept]
    · rw [shortlist, if_pos ((h.any_same_iff cut).mpr hkept)]
  · rw [Shortlist.enter, if_neg hkept, shortlist, if_neg fun hany =>
      hkept ((h.any_same_iff cut).mp hany)]
    by_cases hroom : l.heap.size < limit
    · have hlength := h.size_eq ▸ hroom
      have hmap := map_cut_place ha hvalued h.numbers
      refine ⟨_, by simpa only [if_pos hroom] using h.join hlength hcut hkept, ?_⟩
      rw [hmap, List.take_of_length_le]
      rw [← hmap, List.length_map, (perm_place _ entries).length_eq]
      exact hlength
    · have hfull : entries.length = limit := Nat.le_antisymm h.few (h.size_eq ▸ Nat.not_lt.mp hroom)
      have hne : entries ≠ [] := List.ne_nil_of_length_pos (hfull ▸ hlimit)
      obtain ⟨init, last, rfl⟩ := (List.eq_nil_or_concat' entries).resolve_left hne
      have hlast : last ∈ init ++ [last] := by simp
      have hworse := worse_iff_of_number_lt ha (hvalued last hlast) (h.numbers last hlast)
      rw [if_neg hroom, h.min?_eq]
      simp only [hworse]
      split
      · -- The last entry makes room, and goes off the sorted list as well.
        rename_i hbetter
        have hlength : init.length + 1 = limit := by simpa using hfull
        have hmap := map_cut_place ha (fun b hb => hvalued b (List.mem_append_left _ hb))
          fun b hb => h.numbers b (List.mem_append_left _ hb)
        refine ⟨_, h.drop.join (by omega) hcut fun hmem => hkept (SortedSet.mem_erase.mp hmem).1,
          ?_⟩
        rw [hmap, List.map_append, List.map_singleton, insertByValue_concat hbetter,
          List.take_append_of_le_length, List.take_of_length_le] <;>
          rw [← hmap, List.length_map, (perm_place _ init).length_eq, List.length_cons, hlength]
      · -- No entry is worse than the new one, which would stand behind the limit.
        rename_i hnot
        refine ⟨init ++ [last], ⟨h.valid, h.perm, h.sorted, h.few,
          fun b hb => Nat.lt_succ_of_lt (h.numbers b hb), h.different, h.sides⟩, ?_⟩
        refine (take_insertByValue_of_full (by rw [List.length_map, hfull]) fun c hc hlt => ?_).symm
        obtain ⟨b, hb, rfl⟩ := List.mem_map.mp hc
        have hless := (worse_iff (hvalued b hb) ha).mp
          ((worse_iff_of_number_lt ha (hvalued b hb) (h.numbers b hb)).mpr hlt)
        exact hnot (hworse.mp ((worse_iff (hvalued last hlast) ha).mpr
          (hless.trans_le (h.key_le_last hb))))

theorem Holds.foldl {cuts : List (Cut Extended)} (hvalued : Valued w cuts) (hlimit : 0 < limit)
    (h : Holds w limit l entries) :
    ∃ entries', Holds w limit (cuts.foldl (Shortlist.enter limit) l) entries' ∧
      entries'.map (·.cut) = cuts.foldl (shortlist limit) (entries.map (·.cut)) := by
  induction cuts generalizing l entries with
  | nil => exact ⟨entries, h, rfl⟩
  | cons cut cuts ih =>
      obtain ⟨entries₁, h₁, hmap⟩ := h.enter (hvalued cut List.mem_cons_self) hlimit
      rw [List.foldl_cons, List.foldl_cons, ← hmap]
      exact ih (hvalued.mono (List.subset_cons_self cut cuts)) h₁

/-! ### Cuts entered one after the other -/

def after (limit : Nat) (cuts : List (Cut Extended)) : Shortlist Extended :=
  cuts.foldl (enter limit) empty

def sides (l : Shortlist Extended) : List VertexSet := l.heap.toList.map (·.cut.side)

theorem Holds.perm_sides (h : Holds w limit l entries) :
    l.sides.Perm ((entries.map (·.cut)).map (·.side)) := by
  rw [List.map_map]
  exact (h.perm.map _).symm

/-- The first cuts by value of those that differ are listed. -/
theorem holds_after {cuts : List (Cut Extended)} (hvalued : Valued w cuts) (hlimit : 0 < limit) :
    ∃ entries, Holds w limit (after limit cuts) entries ∧
      entries.map (·.cut) = (ranked (distinct cuts)).take limit := by
  obtain ⟨entries, h, hmap⟩ := holds_empty.foldl hvalued hlimit
  rw [List.map_nil, foldl_shortlist hvalued] at hmap
  exact ⟨entries, h, hmap⟩

theorem best_after {cuts : List (Cut Extended)} (hvalued : Valued w cuts) (hlimit : 0 < limit) :
    (after limit cuts).best = (ranked (distinct cuts)).take limit := by
  obtain ⟨entries, h, hmap⟩ := holds_after hvalued hlimit
  exact h.best_eq.trans hmap

theorem perm_sides_after {cuts : List (Cut Extended)} (hvalued : Valued w cuts)
    (hlimit : 0 < limit) :
    (after limit cuts).sides.Perm (((ranked (distinct cuts)).take limit).map (·.side)) := by
  obtain ⟨entries, h, hmap⟩ := holds_after hvalued hlimit
  exact hmap ▸ h.perm_sides

theorem nodup_sides_after {cuts : List (Cut Extended)} (hvalued : Valued w cuts)
    (hlimit : 0 < limit) : (after limit cuts).sides.Nodup := by
  rw [(perm_sides_after hvalued hlimit).nodup_iff]
  refine List.Nodup.sublist ((List.take_sublist _ _).map _) ?_
  exact ((perm_ranked _).map _).nodup_iff.mpr (nodup_sides_distinct cuts)

/-- A set that was found and is not listed does not come back. -/
theorem notMem_sides_after {before later : List (Cut Extended)}
    (hvalued : Valued w (before ++ later)) (hlimit : 0 < limit) {s : VertexSet}
    (hfound : s ∈ before.map (·.side)) (hgone : s ∉ (after limit before).sides) :
    s ∉ (after limit (before ++ later)).sides := by
  induction later using List.reverseRecOn with
  | nil => rwa [List.append_nil]
  | append_singleton later cut ih =>
      rw [← List.append_assoc] at hvalued ⊢
      have hvalued' : Valued w (before ++ later) := hvalued.mono (List.subset_append_left _ _)
      have hout := ih hvalued'
      rw [(perm_sides_after hvalued' hlimit).mem_iff] at hout
      rw [(perm_sides_after hvalued hlimit).mem_iff, ← foldl_shortlist hvalued, List.foldl_append,
        foldl_shortlist hvalued', List.foldl_cons, List.foldl_nil]
      by_cases hsame : cut.side = s
      · have hmem : cut.side ∈ (distinct (before ++ later)).map (·.side) := by
          obtain ⟨c, hc, hside⟩ := List.mem_map.mp hfound
          rw [hsame, ← hside]
          exact side_mem_distinct (List.mem_append_left _ hc)
        rwa [shortlist_of_mem hvalued.cons_distinct hmem]
      · intro hmem
        obtain ⟨c, hc, rfl⟩ := List.mem_map.mp hmem
        rcases mem_of_mem_shortlist hc with rfl | hc
        · exact hsame rfl
        · exact hout (List.mem_map_of_mem hc)

end Shortlist

end TourSearch
