import TourSearch.Proofs.Separation.History
import Mathlib

/-!
What is chosen of the scanned cuts, said without a bounded list. Every sink has a violated cut or
none. Of all these cuts, those with a set that was met before are passed over (`distinct`);
`Separator.gather` keeps the first ones of the rest (`visitAll_gather`), and a sorted list that is
cut off after every insertion keeps the first ones in the order of their values (`ranked`), which is
the stable order by value (`ranked_eq_mergeSort`). A cut that has dropped out of a full list does
not come back, because its set has only one value (`shortlist_of_mem`).
-/

namespace TourSearch

open Numeric

namespace Separator

variable {w : VertexSet → Rat} {cut c : Cut Extended} {found kept l : List (Cut Extended)}
  {limit : Nat}

/-! ### Cuts with different sets -/

def addNew (found : List (Cut Extended)) (cut : Cut Extended) : List (Cut Extended) :=
  if found.any (·.same cut) then found else found ++ [cut]

/-- The cuts without those whose set stands earlier in the list. -/
def distinct (cuts : List (Cut Extended)) : List (Cut Extended) := cuts.foldl addNew []

theorem any_same_iff : (found.any (·.same cut)) = true ↔ cut.side ∈ found.map (·.side) := by
  simp [Cut.same, List.any_eq_true]

theorem addNew_of_mem (h : cut.side ∈ found.map (·.side)) : addNew found cut = found :=
  if_pos (any_same_iff.mpr h)

theorem addNew_of_notMem (h : cut.side ∉ found.map (·.side)) : addNew found cut = found ++ [cut] :=
  if_neg fun hany => h (any_same_iff.mp hany)

theorem isPrefix_addNew (found : List (Cut Extended)) (cut : Cut Extended) :
    found <+: addNew found cut := by
  unfold addNew
  split
  · exact List.prefix_refl found
  · exact List.prefix_append found [cut]

theorem isPrefix_foldl_addNew (cuts found : List (Cut Extended)) :
    found <+: cuts.foldl addNew found := by
  induction cuts generalizing found with
  | nil => exact List.prefix_refl found
  | cons cut cuts ih => exact (isPrefix_addNew found cut).trans (ih (addNew found cut))

theorem nodup_sides_addNew (h : (found.map (·.side)).Nodup) (cut : Cut Extended) :
    ((addNew found cut).map (·.side)).Nodup := by
  by_cases hmem : cut.side ∈ found.map (·.side)
  · rw [addNew_of_mem hmem]
    exact h
  · rw [addNew_of_notMem hmem, List.map_append, List.map_singleton, ← List.concat_eq_append]
    exact h.concat hmem

theorem nodup_sides_distinct (cuts : List (Cut Extended)) :
    ((distinct cuts).map (·.side)).Nodup := by
  have hfold : ∀ cuts found : List (Cut Extended), (found.map (·.side)).Nodup →
      ((cuts.foldl addNew found).map (·.side)).Nodup := by
    intro cuts
    induction cuts with
    | nil => exact fun _ h => h
    | cons cut cuts ih => exact fun found h => ih _ (nodup_sides_addNew h cut)
  exact hfold cuts [] List.nodup_nil

theorem mem_of_mem_distinct {cuts : List (Cut Extended)} (h : c ∈ distinct cuts) : c ∈ cuts := by
  have hfold : ∀ cuts found : List (Cut Extended), c ∈ cuts.foldl addNew found →
      c ∈ found ∨ c ∈ cuts := by
    intro cuts
    induction cuts with
    | nil => exact fun _ h => Or.inl h
    | cons cut cuts ih =>
        intro found h
        rcases ih _ h with h | h
        · by_cases hmem : cut.side ∈ found.map (·.side)
          · rw [addNew_of_mem hmem] at h
            exact Or.inl h
          · rw [addNew_of_notMem hmem, List.mem_append, List.mem_singleton] at h
            rcases h with h | rfl
            · exact Or.inl h
            · exact Or.inr List.mem_cons_self
        · exact Or.inr (List.mem_cons_of_mem _ h)
  exact (hfold cuts [] h).resolve_left List.not_mem_nil

theorem side_mem_distinct {cuts : List (Cut Extended)} (h : c ∈ cuts) :
    c.side ∈ (distinct cuts).map (·.side) := by
  have hfold : ∀ cuts found : List (Cut Extended), c ∈ cuts →
      c.side ∈ (cuts.foldl addNew found).map (·.side) := by
    intro cuts
    induction cuts with
    | nil => exact fun _ h => absurd h List.not_mem_nil
    | cons cut cuts ih =>
        intro found h
        rcases List.mem_cons.mp h with rfl | h
        · refine List.map_subset _ (isPrefix_foldl_addNew cuts (addNew found c)).subset ?_
          by_cases hmem : c.side ∈ found.map (·.side)
          · rw [addNew_of_mem hmem]
            exact hmem
          · simp [addNew_of_notMem hmem]
        · exact ih _ h
  exact hfold cuts [] h

/-! ### The order of values -/

def insertByValue (cut : Cut Extended) : List (Cut Extended) → List (Cut Extended)
  | [] => [cut]
  | c :: rest => if cut.value < c.value then cut :: c :: rest else c :: insertByValue cut rest

/-- Enters a cut into a list of at most `limit` cuts. A cut whose set is listed is passed over, and
of too many cuts the last one is dropped. -/
def shortlist (limit : Nat) (kept : List (Cut Extended)) (cut : Cut Extended) :
    List (Cut Extended) :=
  if kept.any (·.same cut) then kept else (insertByValue cut kept).take limit

def ranked (cuts : List (Cut Extended)) : List (Cut Extended) :=
  cuts.foldl (fun l cut => insertByValue cut l) []

theorem ranked_concat (cuts : List (Cut Extended)) (cut : Cut Extended) :
    ranked (cuts ++ [cut]) = insertByValue cut (ranked cuts) := by
  rw [ranked, List.foldl_append]
  rfl

theorem perm_insertByValue (cut : Cut Extended) (l : List (Cut Extended)) :
    (insertByValue cut l).Perm (cut :: l) := by
  induction l with
  | nil => exact List.Perm.refl _
  | cons c l ih =>
      rw [insertByValue]
      split
      · exact List.Perm.refl _
      · exact (ih.cons c).trans (List.Perm.swap cut c l)

theorem perm_ranked (cuts : List (Cut Extended)) : (ranked cuts).Perm cuts := by
  induction cuts using List.reverseRecOn with
  | nil => exact List.Perm.refl _
  | append_singleton cuts cut ih =>
      rw [ranked_concat]
      exact (perm_insertByValue cut _).trans
        ((ih.cons cut).trans (List.perm_append_singleton cut cuts).symm)

theorem insertByValue_eq_append (h : ∀ c ∈ l, ¬cut.value < c.value) :
    insertByValue cut l = l ++ [cut] := by
  induction l with
  | nil => rfl
  | cons c l ih =>
      rw [insertByValue, if_neg (h c List.mem_cons_self),
        ih fun d hd => h d (List.mem_cons_of_mem c hd), List.cons_append]

theorem take_insertByValue_of_full (hfull : l.length = limit) (h : ∀ c ∈ l, ¬cut.value < c.value) :
    (insertByValue cut l).take limit = l := by
  rw [insertByValue_eq_append h, List.take_append_of_le_length hfull.ge,
    List.take_of_length_le hfull.le]

/-- In front of a cut of greater value, that cut stays the last one. -/
theorem insertByValue_concat (h : cut.value < c.value) :
    insertByValue cut (l ++ [c]) = insertByValue cut l ++ [c] := by
  induction l with
  | nil => simp [insertByValue, h]
  | cons d l ih =>
      rw [List.cons_append, insertByValue, insertByValue, ih]
      split <;> rfl

/-- What stands behind the limit has no effect on what stands before it. -/
theorem take_insertByValue_take (cut : Cut Extended) (limit : Nat) (l : List (Cut Extended)) :
    (insertByValue cut (l.take limit)).take limit = (insertByValue cut l).take limit := by
  induction l generalizing limit with
  | nil => simp
  | cons c l ih =>
      cases limit with
      | zero => simp
      | succ limit =>
          rw [List.take_succ_cons, insertByValue, insertByValue]
          split
          · rw [List.take_succ_cons, List.take_succ_cons]
            cases limit with
            | zero => simp
            | succ limit => rw [List.take_succ_cons, List.take_succ_cons, List.take_take]; simp
          · rw [List.take_succ_cons, List.take_succ_cons, ih]

def Valued (w : VertexSet → Rat) (cuts : List (Cut Extended)) : Prop :=
  ∀ cut ∈ cuts, cut.value = .finite (w cut.side)

theorem Valued.mono {cuts cuts' : List (Cut Extended)} (h : Valued w cuts) (hsub : cuts' ⊆ cuts) :
    Valued w cuts' := fun c hc => h c (hsub hc)

theorem Valued.cons_distinct {cuts : List (Cut Extended)} (h : Valued w (cuts ++ [cut])) :
    Valued w (cut :: distinct cuts) := by
  refine h.mono (List.cons_subset.mpr ⟨by simp, fun c hc => ?_⟩)
  exact List.mem_append_left _ (mem_of_mem_distinct hc)

def Ascending (w : VertexSet → Rat) (cuts : List (Cut Extended)) : Prop :=
  cuts.Pairwise fun c d => w c.side ≤ w d.side

theorem Ascending.insertByValue (h : Ascending w l) (hl : Valued w (cut :: l)) :
    Ascending w (insertByValue cut l) := by
  induction l with
  | nil => exact List.pairwise_singleton _ _
  | cons c l ih =>
      obtain ⟨hc, hrest⟩ := List.pairwise_cons.mp h
      have hcut : cut.value = .finite (w cut.side) := hl cut List.mem_cons_self
      have hcv : c.value = .finite (w c.side) := hl c (by simp)
      rw [Separator.insertByValue]
      split
      · rename_i hlt
        rw [hcut, hcv, Extended.finite_lt_finite] at hlt
        refine List.pairwise_cons.mpr ⟨fun d hd => ?_, h⟩
        rcases List.mem_cons.mp hd with rfl | hd
        · exact hlt.le
        · exact hlt.le.trans (hc d hd)
      · rename_i hge
        rw [hcut, hcv, Extended.finite_lt_finite, not_lt] at hge
        have hvalued : Valued w (cut :: l) :=
          hl.mono (List.cons_subset_cons cut (List.subset_cons_self c l))
        refine List.pairwise_cons.mpr ⟨fun d hd => ?_, ih hrest hvalued⟩
        rcases List.mem_cons.mp ((perm_insertByValue cut l).mem_iff.mp hd) with rfl | hd
        · exact hge
        · exact hc d hd

theorem ascending_ranked {cuts : List (Cut Extended)} (h : Valued w cuts) :
    Ascending w (ranked cuts) := by
  induction cuts using List.reverseRecOn with
  | nil => exact List.Pairwise.nil
  | append_singleton cuts cut ih =>
      rw [ranked_concat]
      refine (ih (h.mono (List.subset_append_left _ _))).insertByValue (h.mono ?_)
      exact (((perm_ranked cuts).cons cut).trans (List.perm_append_singleton cut cuts).symm).subset

/-- A cut of a known set leaves a shortlist as it is: either it is listed, or it has dropped out,
and then everything listed has at most its value. -/
theorem shortlist_of_mem (hvalued : Valued w (cut :: found))
    (hmem : cut.side ∈ found.map (·.side)) :
    shortlist limit ((ranked found).take limit) cut = (ranked found).take limit := by
  unfold shortlist
  split
  · rfl
  · rename_i hlisted
    obtain ⟨old, hold, hside⟩ := List.mem_map.mp hmem
    have hfound : Valued w found := hvalued.mono (List.subset_cons_self cut found)
    have hranked : Valued w (ranked found) := hfound.mono (perm_ranked found).subset
    have hsorted := ascending_ranked hfound
    have hdropped : old ∈ (ranked found).drop limit := by
      have hall := (perm_ranked found).mem_iff.mpr hold
      rw [← List.take_append_drop limit (ranked found), List.mem_append] at hall
      refine hall.resolve_left fun htake => hlisted (any_same_iff.mpr ?_)
      exact List.mem_map.mpr ⟨old, htake, hside⟩
    have hfull : ((ranked found).take limit).length = limit := by
      rw [List.length_take, Nat.min_eq_left]
      have := List.length_pos_of_mem hdropped
      rw [List.length_drop] at this
      omega
    refine take_insertByValue_of_full hfull fun c hc => ?_
    have hle : w c.side ≤ w old.side := by
      rw [Ascending, ← List.take_append_drop limit (ranked found), List.pairwise_append] at hsorted
      exact hsorted.2.2 c hc old hdropped
    rw [hvalued cut List.mem_cons_self, hranked c (List.mem_of_mem_take hc),
      Extended.finite_lt_finite, ← hside, not_lt]
    exact hle

theorem mem_of_mem_shortlist (h : c ∈ shortlist limit kept cut) : c = cut ∨ c ∈ kept := by
  unfold shortlist at h
  split at h
  · exact Or.inr h
  · exact List.mem_cons.mp ((perm_insertByValue cut kept).mem_iff.mp (List.mem_of_mem_take h))

theorem shortlist_eq (hvalued : Valued w (cut :: found)) :
    shortlist limit ((ranked found).take limit) cut = (ranked (addNew found cut)).take limit := by
  by_cases hmem : cut.side ∈ found.map (·.side)
  · rw [addNew_of_mem hmem, shortlist_of_mem hvalued hmem]
  · rw [addNew_of_notMem hmem, ranked_concat, shortlist, if_neg, take_insertByValue_take]
    intro hany
    obtain ⟨c, hc, hside⟩ := List.mem_map.mp (any_same_iff.mp hany)
    exact hmem (List.mem_map.mpr
      ⟨c, (perm_ranked found).mem_iff.mp (List.mem_of_mem_take hc), hside⟩)

/-- Entering cuts one after the other keeps the first ones by value of those that differ. -/
theorem foldl_shortlist {cuts : List (Cut Extended)} (hvalued : Valued w cuts) :
    cuts.foldl (shortlist limit) [] = (ranked (distinct cuts)).take limit := by
  induction cuts using List.reverseRecOn with
  | nil => simp [distinct, ranked]
  | append_singleton cuts cut ih =>
      rw [distinct, List.foldl_append, List.foldl_append,
        ih (hvalued.mono (List.subset_append_left _ _))]
      exact shortlist_eq hvalued.cons_distinct

/-! ### The stable order -/

theorem insertByValue_orderedInsert {a : Cut Extended} (hvalued : Valued w (cut :: a :: l)) :
    insertByValue cut (l.orderedInsert (fun c d => w c.side ≤ w d.side) a) =
      (insertByValue cut l).orderedInsert (fun c d => w c.side ≤ w d.side) a := by
  have hless : ∀ {c}, c ∈ a :: l → (cut.value < c.value ↔ w cut.side < w c.side) := by
    intro c hc
    rw [hvalued cut List.mem_cons_self, hvalued c (List.mem_cons_of_mem cut hc),
      Extended.finite_lt_finite]
  induction l with
  | nil =>
      have ha := hless (List.mem_cons_self (a := a))
      by_cases hlt : w cut.side < w a.side
      · simp [insertByValue, ha, hlt]
      · simp [insertByValue, ha, hlt, not_lt.mp hlt]
  | cons b l ih =>
      have ha := hless (List.mem_cons_self (a := a))
      have hb := hless (show b ∈ a :: b :: l by simp)
      have hsub : a :: l ⊆ a :: b :: l := List.cons_subset_cons a (List.subset_cons_self b l)
      have hrest := ih (hvalued.mono (List.cons_subset_cons cut hsub)) fun hc => hless (hsub hc)
      by_cases hab : w a.side ≤ w b.side
      · by_cases hcb : w cut.side < w b.side
        · by_cases hca : w cut.side < w a.side
          · simp [insertByValue, hab, ha, hb, hcb, hca]
          · simp [insertByValue, hab, ha, hb, hcb, hca, not_lt.mp hca]
        · have hca : ¬w cut.side < w a.side := fun h => hcb (h.trans_le hab)
          simp [insertByValue, hab, ha, hb, hcb, hca]
      · by_cases hcb : w cut.side < w b.side
        · have hca : ¬w a.side ≤ w cut.side := fun h => hab (h.trans hcb.le)
          simp [insertByValue, hab, hb, hcb, hca]
        · simp [insertByValue, hab, hb, hcb, hrest]

/-- Sorting by insertion from the end does not move equal entries past one another. -/
theorem insertionSort_eq_mergeSort {β : Type} (r : β → β → Prop) [DecidableRel r] [Std.Total r]
    [IsTrans β r] (l : List β) : l.insertionSort r = l.mergeSort fun a b => decide (r a b) := by
  have htrans : ∀ a b c, decide (r a b) = true → decide (r b c) = true → decide (r a c) = true := by
    intro a b c hab hbc
    simpa using trans_of r (of_decide_eq_true hab) (of_decide_eq_true hbc)
  have htotal : ∀ a b, (decide (r a b) || decide (r b a)) = true := by
    intro a b
    simpa using total_of r a b
  have hinsert : ∀ (a : β) (l₁ l₂ : List β), (∀ b ∈ l₁, ¬r a b) → (∀ b ∈ l₂, r a b) →
      (l₁ ++ l₂).orderedInsert r a = l₁ ++ a :: l₂ := by
    intro a l₁ l₂ hbefore hbehind
    induction l₁ with
    | nil =>
        cases l₂ with
        | nil => rfl
        | cons b l₂ => simp [hbehind b List.mem_cons_self]
    | cons b l₁ ih =>
        rw [List.cons_append, List.orderedInsert_cons, if_neg (hbefore b List.mem_cons_self),
          ih fun c hc => hbefore c (List.mem_cons_of_mem b hc), List.cons_append]
  induction l with
  | nil => simp
  | cons a l ih =>
      obtain ⟨l₁, l₂, hcons, hrest, hbefore⟩ := List.mergeSort_cons htrans htotal a l
      have hsorted := List.pairwise_mergeSort htrans htotal (a :: l)
      rw [hcons, List.pairwise_append, List.pairwise_cons] at hsorted
      rw [List.insertionSort_cons, ih, hcons, hrest]
      exact hinsert a l₁ l₂ (fun b hb => by simpa using hbefore b hb)
        fun b hb => by simpa using hsorted.2.1.1 b hb

theorem ranked_eq_insertionSort {cuts : List (Cut Extended)} (hvalued : Valued w cuts) :
    ranked cuts = cuts.insertionSort fun c d => w c.side ≤ w d.side := by
  induction cuts with
  | nil => rfl
  | cons a cuts ih =>
      rw [List.insertionSort_cons, ← ih (hvalued.mono (List.subset_cons_self a cuts))]
      -- The cuts behind the first one are entered after it, each of them at the end.
      clear ih
      induction cuts using List.reverseRecOn with
      | nil => rfl
      | append_singleton cuts cut ih =>
          have hperm : (cut :: a :: cuts).Perm (a :: (cuts ++ [cut])) :=
            (List.perm_append_singleton cut (a :: cuts)).symm
          rw [← List.cons_append, ranked_concat, ranked_concat,
            ih (hvalued.mono (List.cons_subset_cons a (List.subset_append_left _ _)))]
          exact insertByValue_orderedInsert
            (hvalued.mono ((((perm_ranked cuts).cons a).cons cut).trans hperm).subset)

/-- Cuts by value, equal ones in the order of the list. -/
theorem ranked_eq_mergeSort {cuts : List (Cut Extended)} (hvalued : Valued w cuts) :
    ranked cuts = cuts.mergeSort fun c d => decide (c.value ≤ d.value) := by
  have : Std.Total fun c d : Cut Extended => w c.side ≤ w d.side := ⟨fun _ _ => le_total _ _⟩
  have : IsTrans (Cut Extended) fun c d => w c.side ≤ w d.side := ⟨fun _ _ _ => le_trans⟩
  rw [ranked_eq_insertionSort hvalued, insertionSort_eq_mergeSort]
  have hsame := List.map_mergeSort (f := id) (l := cuts)
    (r := fun c d => decide (w c.side ≤ w d.side)) (s := fun c d => decide (c.value ≤ d.value))
    fun c hc d hd => by
      simp only [id, hvalued c hc, hvalued d hd, Extended.finite_le_finite]
  simpa using hsame

/-! ### Visits -/

def visitAll {β : Type} (visit : β → Cut Extended → ForInStep β) : β → List (Cut Extended) → β
  | b, [] => b
  | b, cut :: rest =>
      match visit b cut with
      | .done b => b
      | .yield b => visitAll visit b rest

theorem visitCuts_eq {β : Type} {strategy : MinCutStrategy Extended} {source : Vertex}
    {sinks : List Vertex} {cutOf : Vertex → Option (Cut Extended)}
    (hsinks : ∀ sink ∈ sinks, sinkCut strategy source sink = .ok (cutOf sink))
    (visit : β → Cut Extended → ForInStep β) (b : β) :
    visitCuts strategy source visit b sinks = .ok (visitAll visit b (sinks.filterMap cutOf)) := by
  induction sinks generalizing b with
  | nil => rfl
  | cons sink rest ih =>
      have hrest := fun s hs => hsinks s (List.mem_cons_of_mem sink hs)
      rw [visitCuts, hsinks sink List.mem_cons_self, List.filterMap_cons]
      cases cutOf sink with
      | none => exact ih hrest b
      | some cut =>
          simp only [bind, Except.bind, visitAll]
          cases visit b cut with
          | done b => rfl
          | yield b => exact ih hrest b

theorem visitAll_yield {β : Type} (f : β → Cut Extended → β) (b : β) (cuts : List (Cut Extended)) :
    visitAll (fun b cut => .yield (f b cut)) b cuts = cuts.foldl f b := by
  induction cuts generalizing b with
  | nil => rfl
  | cons cut cuts ih => exact ih (f b cut)

theorem visitAll_gather (hroom : found.length < limit) (cuts : List (Cut Extended)) :
    visitAll (gather limit) found cuts = (cuts.foldl addNew found).take limit := by
  induction cuts generalizing found with
  | nil => rw [visitAll, List.foldl_nil, List.take_of_length_le hroom.le]
  | cons cut cuts ih =>
      rw [visitAll, gather, List.foldl_cons]
      by_cases hmem : cut.side ∈ found.map (·.side)
      · rw [if_pos (any_same_iff.mpr hmem), addNew_of_mem hmem]
        exact ih hroom
      · rw [if_neg fun hany => hmem (any_same_iff.mp hany), addNew_of_notMem hmem]
        by_cases hfull : limit ≤ (found ++ [cut]).length
        · -- The list is full, and what is found later does not change its beginning.
          have hlength : (found ++ [cut]).length = limit := by
            rw [List.length_append, List.length_singleton] at hfull ⊢
            omega
          obtain ⟨later, hlater⟩ := isPrefix_foldl_addNew cuts (found ++ [cut])
          simp only [if_pos hfull]
          rw [← hlater, List.take_append_of_le_length hlength.ge, List.take_of_length_le hlength.le]
        · simp only [if_neg hfull]
          exact ih (Nat.lt_of_not_le hfull)

end Separator

end TourSearch
