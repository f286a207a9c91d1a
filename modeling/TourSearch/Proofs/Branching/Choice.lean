import TourSearch.Proofs.Branching
import TourSearch.Proofs.Graph.Refresh
import Mathlib

/-!
The edge that is branched on. For finite values the candidates are listed by a filter over the
entries, sorted by score and cut off. Since the sort is stable and the cut leaves its first entry,
the best candidate is the first one of the highest score among all, however few are kept
(`best?_leading_mergeSort`): it splits the first edge whose fraction is closest to one half
(`best?_candidates`).
-/

namespace TourSearch

open Numeric

/-! ### Fractions of finite values -/

def behind (value : Extended) : Rat :=
  match Scalar.fraction value with
  | .ok (.finite f) => f
  | _ => 0

theorem fraction_eq_behind (x : Rat) :
    Scalar.fraction (Extended.finite x) = .ok (.finite (behind (.finite x))) := by
  obtain ⟨f, hf, -⟩ := fraction_finite x
  simp only [behind, hf]

/-- A value whose fraction lies strictly between a tolerance and one less the tolerance. -/
def Interior (tolerance value : Extended) : Prop :=
  tolerance < .finite (behind value) ∧ .finite (behind value) < Scalar.one - tolerance

instance (tolerance value : Extended) : Decidable (Interior tolerance value) :=
  inferInstanceAs (Decidable (_ ∧ _))

theorem not_interior_iff {tolerance : Extended} (hnumber : tolerance ≠ .undefined)
    (value : Extended) : ¬Interior tolerance value ↔
      .finite (behind value) ≤ tolerance ∨ Scalar.one - tolerance ≤ .finite (behind value) := by
  have hrest : Scalar.one - tolerance ≠ (.undefined : Extended) := by
    cases tolerance with
    | undefined => exact absurd rfl hnumber
    | finite x => simp
    | negInfinity | infinity => exact nofun
  rw [Interior, not_and_or, Extended.not_lt hnumber (by simp), Extended.not_lt (by simp) hrest]

def offHalf (value : Extended) : Rat := |behind value - 1 / 2|

theorem integralEntries_eq {tolerance : Extended} {entries : List (Edge × Extended)}
    (hfinite : ∀ entry ∈ entries, ∃ x : Rat, entry.2 = .finite x) :
    integralEntries tolerance entries =
      .ok (entries.all fun entry => !decide (Interior tolerance entry.2)) := by
  induction entries with
  | nil => rfl
  | cons entry rest ih =>
      obtain ⟨e, value⟩ := entry
      obtain ⟨x, rfl : value = .finite x⟩ := hfinite (e, value) List.mem_cons_self
      rw [integralEntries, fraction_eq_behind, List.all_cons]
      by_cases hinterior : Interior tolerance (.finite x)
      · rw [decide_eq_true hinterior]
        exact if_pos hinterior
      · rw [decide_eq_false hinterior, Bool.not_false, Bool.true_and,
          ← ih fun entry h => hfinite entry (List.mem_cons_of_mem _ h)]
        exact if_neg hinterior

/-! ### The first of the greatest -/

/-- What is greatest in a list, and comes before all that are as great. -/
theorem exists_append_of_argmax {β : Type} {f : β → Rat} {l : List β} {a : β}
    (h : l.argmax f = some a) : ∃ before after, l = before ++ a :: after ∧
      (∀ b ∈ before, f b < f a) ∧ ∀ b ∈ after, f b ≤ f a := by
  induction l with
  | nil => simp at h
  | cons b l ih =>
      rw [List.argmax_cons] at h
      cases hrest : l.argmax f with
      | none =>
          rw [hrest] at h
          obtain rfl : b = a := Option.some.inj h
          rw [List.argmax_eq_none.mp hrest]
          exact ⟨[], [], rfl, by simp, by simp⟩
      | some c =>
          rw [hrest] at h
          by_cases hbc : f b < f c
          · obtain rfl : c = a := by simpa [hbc] using h
            obtain ⟨before, after, hl, hbefore, hafter⟩ := ih hrest
            exact ⟨b :: before, after, by rw [hl, List.cons_append],
              List.forall_mem_cons.mpr ⟨hbc, hbefore⟩, hafter⟩
          · obtain rfl : b = a := by simpa [hbc] using h
            exact ⟨[], l, rfl, by simp, fun d hd =>
              (List.le_of_mem_argmax hd hrest).trans (not_lt.mp hbc)⟩

/-- In a list that does not rise, the first entry is the greatest. -/
theorem argmax_of_pairwise {β : Type} {f : β → Rat} {l : List β}
    (hl : l.Pairwise fun a b => f b ≤ f a) : l.argmax f = l.head? := by
  cases l with
  | nil => rfl
  | cons a l =>
      rw [List.argmax_cons, List.head?_cons]
      cases hrest : l.argmax f with
      | none => rfl
      | some b =>
          have hle := (List.pairwise_cons.mp hl).1 b (List.argmax_mem hrest)
          simp [not_lt.mpr hle]

theorem falling_trans {β : Type} (f : β → Rat) (a b c : β) (hab : decide (f b ≤ f a) = true)
    (hbc : decide (f c ≤ f b) = true) : decide (f c ≤ f a) = true :=
  decide_eq_true ((of_decide_eq_true hbc).trans (of_decide_eq_true hab))

theorem falling_total {β : Type} (f : β → Rat) (a b : β) :
    (decide (f b ≤ f a) || decide (f a ≤ f b)) = true := by
  simpa using le_total (f b) (f a)

theorem pairwise_mergeSort {β : Type} (f : β → Rat) (l : List β) :
    (l.mergeSort fun a b => decide (f b ≤ f a)).Pairwise fun a b => f b ≤ f a :=
  (List.pairwise_mergeSort (falling_trans f) (falling_total f) l).imp of_decide_eq_true

/-- A stable sort in falling order puts in front what was the first of the greatest. -/
theorem head?_mergeSort {β : Type} (f : β → Rat) (l : List β) :
    (l.mergeSort fun a b => decide (f b ≤ f a)).head? = l.argmax f := by
  induction l with
  | nil => simp
  | cons a l ih =>
      obtain ⟨l₁, l₂, hcons, hrest, hbefore⟩ := List.mergeSort_cons (falling_trans f)
        (falling_total f) a l
      have hsorted := pairwise_mergeSort f (a :: l)
      rw [hcons] at hsorted ⊢
      rw [List.argmax_cons, ← ih, hrest]
      cases l₁ with
      | nil =>
          cases l₂ with
          | nil => rfl
          | cons b l₂ =>
              -- Nothing that comes later in the sorted list is greater.
              have hle : f b ≤ f a := (List.pairwise_cons.mp hsorted).1 b List.mem_cons_self
              simp [not_lt.mpr hle]
      | cons b l₁ =>
          have hlt : f a < f b := by simpa using hbefore b List.mem_cons_self
          simp [hlt]

namespace Candidate

variable {μ : Type}

def rank (c : Candidate Extended μ) : Rat := c.score.toRat

def Scored (cs : List (Candidate Extended μ)) : Prop := ∀ c ∈ cs, c.score = .finite c.rank

theorem Scored.lt_iff {cs : List (Candidate Extended μ)} (hscored : Scored cs)
    {c d : Candidate Extended μ} (hc : c ∈ cs) (hd : d ∈ cs) :
    c.score < d.score ↔ c.rank < d.rank := by
  rw [hscored c hc, hscored d hd, Extended.finite_lt_finite]

theorem Scored.subset {cs ds : List (Candidate Extended μ)} (hscored : Scored cs)
    (hsub : ds ⊆ cs) : Scored ds := fun d hd => hscored d (hsub hd)

theorem best?_concat (cs : List (Candidate Extended μ)) (c : Candidate Extended μ) :
    best? (cs ++ [c]) = match best? cs with
      | none => some c
      | some b => some (if b.score < c.score then c else b) := by
  cases cs with
  | nil => rfl
  | cons first rest => simp [best?]

theorem best?_eq_argmax {cs : List (Candidate Extended μ)} (hscored : Scored cs) :
    best? cs = cs.argmax rank := by
  induction cs using List.reverseRecOn with
  | nil => rfl
  | append_singleton cs c ih =>
      have hbefore := ih (hscored.subset (List.subset_append_left _ _))
      rw [best?_concat, List.argmax_concat, ← hbefore]
      cases hbest : best? cs with
      | none => rfl
      | some b =>
          have hb : b ∈ cs ++ [c] := List.mem_append_left _ (best?_mem hbest)
          have hc : c ∈ cs ++ [c] := List.mem_append_right _ List.mem_cons_self
          simp only [hscored.lt_iff hb hc]
          split <;> rfl

/-- Sorted by score and cut off behind the first entries, candidates have the same best one. -/
theorem best?_leading_mergeSort {cs : List (Candidate Extended μ)} (hscored : Scored cs)
    {count : Int} (hcount : 1 ≤ count) :
    best? (leading count (cs.mergeSort fun c d => !decide (c.score < d.score))) =
      cs.argmax rank := by
  have hsame : (cs.mergeSort fun c d => !decide (c.score < d.score)) =
      cs.mergeSort fun c d => decide (d.rank ≤ c.rank) := by
    have hmap := List.map_mergeSort (f := id) (l := cs)
      (r := fun c d => !decide (c.score < d.score)) (s := fun c d => decide (d.rank ≤ c.rank))
      fun c hc d hd => by simp only [id, hscored.lt_iff hc hd, ← decide_not, not_lt]
    simpa using hmap
  rw [hsame, leading, if_neg (by omega)]
  have hsub := List.take_sublist count.toNat (cs.mergeSort fun c d => decide (d.rank ≤ c.rank))
  have hkept := hscored.subset fun c hc => List.mem_mergeSort.mp (hsub.subset hc)
  rw [best?_eq_argmax hkept, argmax_of_pairwise, ← head?_mergeSort, List.head?_take,
    if_neg (by omega)]
  exact (pairwise_mergeSort rank cs).sublist hsub

end Candidate

/-! ### The candidates of finite values -/

/-- The first of the entries with an interior value whose fraction is closest to one half. -/
def FirstCentral (tolerance : Extended) (entries : List (Edge × Extended))
    (entry : Edge × Extended) : Prop :=
  Interior tolerance entry.2 ∧ ∃ before after, entries = before ++ entry :: after ∧
    (∀ other ∈ before, Interior tolerance other.2 → offHalf entry.2 < offHalf other.2) ∧
    ∀ other ∈ after, Interior tolerance other.2 → offHalf entry.2 ≤ offHalf other.2

theorem FirstCentral.unique {tolerance : Extended} {entries : List (Edge × Extended)}
    {entry other : Edge × Extended} (h : FirstCentral tolerance entries entry)
    (hother : FirstCentral tolerance entries other) : entry = other := by
  obtain ⟨hinterior, before, after, hentries, hbefore, hafter⟩ := h
  obtain ⟨hinterior', before', after', hentries', hbefore', hafter'⟩ := hother
  -- If one of the two came before the other, it would be closer to one half and not closer.
  rcases List.append_eq_append_iff.mp (hentries.symm.trans hentries') with
    ⟨_ | ⟨first, rest⟩, hsplit, hrest⟩ | ⟨_ | ⟨first, rest⟩, hsplit, hrest⟩
  · exact (List.cons.inj hrest).1
  · obtain ⟨rfl, rfl⟩ := List.cons.inj hrest
    have hlt := hbefore' entry (by simp [hsplit]) hinterior
    have hle := hafter other (by simp) hinterior'
    exact absurd hlt (not_lt.mpr hle)
  · exact (List.cons.inj hrest).1.symm
  · obtain ⟨rfl, rfl⟩ := List.cons.inj hrest
    have hlt := hbefore other (by simp [hsplit]) hinterior'
    have hle := hafter' entry (by simp) hinterior
    exact absurd hlt (not_lt.mpr hle)

namespace EdgeBranching

def candidateOf (id : Nat) (entry : Edge × Extended) : Candidate Extended Move where
  score := scoreOf (.finite (behind entry.2))
  decisions := [⟨2 * id, .fix entry.1⟩, ⟨2 * id + 1, .remove entry.1⟩]
  description := "edge " ++ entry.1.shown ++ ": value=" ++ fixed 3 (Scalar.reading entry.2)
  subject := some entry

def proposal (b : EdgeBranching Extended) (id : Nat) (entry : Edge × Extended) :
    Option (Candidate Extended Move) :=
  if Interior b.tolerance entry.2 then some (candidateOf id entry) else none

variable {b : EdgeBranching Extended} {id : Nat}

theorem proposal_eq_some_iff {entry : Edge × Extended} {c : Candidate Extended Move} :
    b.proposal id entry = some c ↔ Interior b.tolerance entry.2 ∧ candidateOf id entry = c := by
  unfold proposal
  split
  · rename_i hinterior
    simp [hinterior]
  · rename_i hinterior
    simp [hinterior]

/-- The closer to one half, the higher is the score. -/
theorem score_candidateOf (id : Nat) (entry : Edge × Extended) :
    (candidateOf id entry).score = .finite (1 - offHalf entry.2 * 2) := by
  show scoreOf (Extended.finite (behind entry.2)) = _
  simp [scoreOf, offHalf]

theorem rank_candidateOf (id : Nat) (entry : Edge × Extended) :
    (candidateOf id entry).rank = 1 - offHalf entry.2 * 2 := by
  rw [Candidate.rank, score_candidateOf, Extended.toRat_finite]

theorem allCandidates_eq (hnumber : b.tolerance ≠ .undefined) {entries : List (Edge × Extended)}
    (hfinite : ∀ entry ∈ entries, ∃ x : Rat, entry.2 = .finite x) :
    b.allCandidates id entries = .ok (entries.filterMap (b.proposal id)) := by
  induction entries with
  | nil => rfl
  | cons entry rest ih =>
      obtain ⟨e, value⟩ := entry
      obtain ⟨x, rfl : value = .finite x⟩ := hfinite (e, value) List.mem_cons_self
      have hfirst : b.candidate? id e (.finite x) = .ok (b.proposal id (e, .finite x)) := by
        rw [candidate?, fraction_eq_behind, proposal]
        by_cases hinterior : Interior b.tolerance (.finite x)
        · have hneither := (not_iff_not.mpr (not_interior_iff hnumber _)).mp (not_not.mpr hinterior)
          rw [if_pos hinterior]
          exact if_neg hneither
        · rw [if_neg hinterior]
          exact if_pos ((not_interior_iff hnumber _).mp hinterior)
      rw [allCandidates, hfirst, ih fun entry h => hfinite entry (List.mem_cons_of_mem _ h),
        List.filterMap_cons]
      cases b.proposal id (e, .finite x) <;> rfl

theorem scored_filterMap (entries : List (Edge × Extended)) :
    Candidate.Scored (entries.filterMap (b.proposal id)) := by
  intro c hc
  obtain ⟨entry, -, hproposal⟩ := List.mem_filterMap.mp hc
  obtain ⟨-, rfl⟩ := proposal_eq_some_iff.mp hproposal
  rw [rank_candidateOf, score_candidateOf]

theorem candidates_eq (hnumber : b.tolerance ≠ .undefined) {values : EdgeValues Extended}
    (hfinite : values.Finite) : b.candidates id values =
      .ok (leading b.maxCandidates ((values.entries.filterMap (b.proposal id)).mergeSort
        fun c d => !decide (c.score < d.score))) := by
  rw [candidates, allCandidates_eq hnumber hfinite]
  rfl

/-- The best candidate splits the first edge whose fraction is closest to one half, however few
candidates are kept. There is one just when some value is interior. -/
theorem best?_candidates (hnumber : b.tolerance ≠ .undefined) (hcount : 1 ≤ b.maxCandidates)
    {values : EdgeValues Extended} (hfinite : values.Finite) :
    ∃ best, (b.candidates id values).map Candidate.best? = .ok best ∧
      (best = none ↔ ∀ entry ∈ values.entries, ¬Interior b.tolerance entry.2) ∧
      ∀ c, best = some c → ∃ entry, FirstCentral b.tolerance values.entries entry ∧
        c = candidateOf id entry := by
  have hcandidates : (b.candidates id values).map Candidate.best? =
      .ok ((values.entries.filterMap (b.proposal id)).argmax Candidate.rank) := by
    rw [candidates_eq hnumber hfinite,
      ← Candidate.best?_leading_mergeSort (scored_filterMap _) hcount]
    rfl
  refine ⟨_, hcandidates, ?_, fun c hc => ?_⟩
  · rw [List.argmax_eq_none, List.filterMap_eq_nil_iff]
    exact forall₂_congr fun entry _ => ite_eq_right_iff.trans (by simp)
  · obtain ⟨above, below, hall, habove, hbelow⟩ := exists_append_of_argmax hc
    obtain ⟨first, second, hentries, rfl, hsecond⟩ := List.filterMap_eq_append_iff.mp hall
    obtain ⟨skipped, entry, after, rfl, hskipped, hentry, rfl⟩ :=
      List.filterMap_eq_cons_iff.mp hsecond
    obtain ⟨hinterior, rfl⟩ := proposal_eq_some_iff.mp hentry
    refine ⟨entry, ⟨hinterior, first ++ skipped, after, by simp [hentries], ?_, ?_⟩, rfl⟩
    · intro other hother hin
      rcases List.mem_append.mp hother with hfirst | hskip
      · have hlt := habove (candidateOf id other)
          (List.mem_filterMap.mpr ⟨other, hfirst, proposal_eq_some_iff.mpr ⟨hin, rfl⟩⟩)
        rw [rank_candidateOf, rank_candidateOf] at hlt
        linarith
      · have hnone := hskipped other hskip
        rw [proposal_eq_some_iff.mpr ⟨hin, rfl⟩] at hnone
        cases hnone
    · intro other hother hin
      have hle := hbelow (candidateOf id other)
        (List.mem_filterMap.mpr ⟨other, hother, proposal_eq_some_iff.mpr ⟨hin, rfl⟩⟩)
      rw [rank_candidateOf, rank_candidateOf] at hle
      linarith

end EdgeBranching

end TourSearch
