import TourSearch.Branching
import TourSearch.Relaxation
import TourSearch.Proofs.Action
import TourSearch.Proofs.Extended
import Mathlib

/-!
What edge branching proposes. Every candidate splits on an edge whose value is fractional, and one
child must use the edge while the other may not. Values that do not count as integral have a
candidate, since both tests compare with the same tolerance.
-/

namespace TourSearch

open Numeric

/-- A value that lies farther than the tolerance from the whole numbers next to it. -/
def Fractional (tolerance value : Extended) : Prop :=
  ∃ frac, Scalar.fraction value = .ok frac ∧ ¬frac ≤ tolerance ∧ ¬Scalar.one - tolerance ≤ frac

/-- The whole part of a negative fraction is the one above it. -/
theorem fraction_of_neg {x : Rat} (hneg : x < 0) :
    Scalar.fraction (Extended.finite x) = .ok (.finite (x + ⌊-x⌋)) := by
  have htruncate : Scalar.truncate (Extended.finite x) =
      .ok (.finite ((-⌊-x⌋ : Int) : Rat)) := by
    have hreading : Scalar.reading (Extended.finite x) = .finite true (-x) := by
      show Reading.ofRat x = _
      simp [Reading.ofRat, hneg]
    rw [Scalar.truncate, hreading]
    rfl
  show (Scalar.truncate (Extended.finite x) >>= _) = _
  rw [htruncate]
  show Except.ok (Extended.finite x - Extended.finite _) = _
  rw [Extended.finite_sub_finite, Int.cast_neg, sub_neg_eq_add]

theorem fraction_of_nonneg {x : Rat} (hx : 0 ≤ x) :
    Scalar.fraction (Extended.finite x) = .ok (.finite (Int.fract x)) := by
  have htruncate : Scalar.truncate (Extended.finite x) = .ok (.finite (⌊x⌋ : Rat)) := by
    have hreading : Scalar.reading (Extended.finite x) = .finite false x := by
      show Reading.ofRat x = _
      simp [Reading.ofRat, not_lt.mpr hx]
    rw [Scalar.truncate, hreading]
    rfl
  show (Scalar.truncate (Extended.finite x) >>= _) = _
  rw [htruncate]
  show Except.ok (Extended.finite x - Extended.finite _) = _
  rw [Extended.finite_sub_finite, Int.self_sub_floor]

theorem fraction_finite (x : Rat) : ∃ f : Rat, Scalar.fraction (Extended.finite x) =
    .ok (.finite f) ∧ (0 ≤ x → f = Int.fract x) := by
  rcases lt_or_ge x 0 with hneg | hx
  · exact ⟨_, fraction_of_neg hneg, fun hpos => absurd hneg (not_lt.mpr hpos)⟩
  · exact ⟨_, fraction_of_nonneg hx, fun _ => rfl⟩

theorem finite_of_fraction {value f : Extended} (h : Scalar.fraction value = .ok f) :
    ∃ x : Rat, value = .finite x := by
  obtain ⟨whole, hwhole, -⟩ := except_bind_eq_ok.mp h
  cases value with
  | finite x => exact ⟨x, rfl⟩
  | negInfinity => cases hwhole
  | infinity => cases hwhole
  | undefined => cases hwhole

/-- A value within the tolerance of 0 or 1 is not fractional. -/
theorem not_fractional_of_near {tolerance value : Extended} {whole : Rat}
    (hwhole : whole = 0 ∨ whole = 1)
    (hnear : Scalar.magnitude (value - .finite whole) ≤ tolerance) :
    ¬Fractional tolerance value := by
  rintro ⟨frac, hfrac, hlow, hhigh⟩
  obtain ⟨x, rfl⟩ := finite_of_fraction hfrac
  rw [Extended.finite_sub_finite, Extended.magnitude_finite] at hnear
  cases tolerance with
  | negInfinity => simp at hnear
  | undefined => simp at hnear
  | infinity =>
      obtain ⟨f, hf, -⟩ := fraction_finite x
      obtain rfl := Except.ok.inj (hf.symm.trans hfrac)
      exact hlow (Or.inl trivial)
  | finite tol =>
      rw [Extended.finite_le_finite, abs_le] at hnear
      obtain ⟨hbelow, habove⟩ := hnear
      rcases lt_or_ge x 0 with hneg | hx
      · -- The fraction is not positive, and the tolerance is not negative.
        obtain rfl := Except.ok.inj ((fraction_of_neg hneg).symm.trans hfrac)
        have hfloor := Int.floor_le (-x)
        apply hlow
        rw [Extended.finite_le_finite]
        linarith
      · obtain rfl := Except.ok.inj ((fraction_of_nonneg hx).symm.trans hfrac)
        have hlow' : tol < Int.fract x := not_le.mp (hlow ∘ Extended.finite_le_finite.mpr)
        have hhigh' : Int.fract x < 1 - tol := by
          rw [Extended.scalar_one, Extended.finite_sub_finite, Extended.finite_le_finite] at hhigh
          exact not_le.mp hhigh
        rcases lt_or_ge x 1 with hlt | hge
        · rw [Int.fract_eq_self.mpr ⟨hx, hlt⟩] at hlow' hhigh'
          rcases hwhole with rfl | rfl <;> linarith
        · -- The tolerance is below one half, so the value is below 2.
          have hfract : Int.fract x = x - 1 := by
            rw [Int.fract_eq_iff]
            refine ⟨by linarith, ?_, 1, by simp⟩
            rcases hwhole with rfl | rfl <;> linarith
          rw [hfract] at hlow' hhigh'
          rcases hwhole with rfl | rfl <;> linarith

theorem exists_fractional {tolerance : Extended} {entries : List (Edge × Extended)}
    (h : integralEntries tolerance entries = .ok false) :
    ∃ entry ∈ entries, Fractional tolerance entry.2 := by
  induction entries with
  | nil => simp [integralEntries] at h
  | cons entry rest ih =>
      obtain ⟨e, value⟩ := entry
      rw [integralEntries] at h
      obtain ⟨frac, hfrac, h⟩ := except_bind_eq_ok.mp h
      split at h
      · rename_i hbetween
        obtain ⟨hlow, hhigh⟩ := hbetween
        refine ⟨(e, value), List.mem_cons_self, frac, hfrac, fun hle => ?_, fun hle => ?_⟩
        · exact Extended.not_lt_self (Extended.lt_of_lt_of_le hlow hle)
        · exact Extended.not_lt_self (Extended.lt_of_lt_of_le hhigh hle)
      · obtain ⟨entry, hentry, hfractional⟩ := ih h
        exact ⟨entry, List.mem_cons_of_mem _ hentry, hfractional⟩

/-- Finite values have an answer; when they are integral, none of them is fractional. -/
theorem integralEntries_finite {tolerance : Extended} {entries : List (Edge × Extended)}
    (hfinite : ∀ entry ∈ entries, ∃ x : Rat, entry.2 = .finite x) :
    ∃ integral, integralEntries tolerance entries = .ok integral ∧
      (integral = true → ∀ e x f, (e, x) ∈ entries → Scalar.fraction x = .ok f →
        ¬(tolerance < f ∧ f < Scalar.one - tolerance)) := by
  induction entries with
  | nil => exact ⟨true, rfl, by simp⟩
  | cons entry rest ih =>
      obtain ⟨e, value⟩ := entry
      obtain ⟨x, rfl : value = .finite x⟩ := hfinite (e, value) List.mem_cons_self
      obtain ⟨f, hf, -⟩ := fraction_finite x
      obtain ⟨integral, hintegral, hnone⟩ := ih fun entry h =>
        hfinite entry (List.mem_cons_of_mem _ h)
      rw [integralEntries, hf]
      by_cases hbetween : tolerance < .finite f ∧ Extended.finite f < Scalar.one - tolerance
      · exact ⟨false, if_pos hbetween, by simp⟩
      · refine ⟨integral, (if_neg hbetween).trans hintegral, fun htrue => ?_⟩
        intro e' x' f' hmem hf'
        rcases List.mem_cons.mp hmem with heq | hmem
        · obtain ⟨rfl, rfl⟩ := Prod.mk.inj heq
          rw [hf] at hf'
          exact Except.ok.inj hf' ▸ hbetween
        · exact hnone htrue e' x' f' hmem hf'

namespace Candidate

variable {μ : Type}

theorem best?_mem {cs : List (Candidate Extended μ)} {c : Candidate Extended μ}
    (h : best? cs = some c) : c ∈ cs := by
  cases cs with
  | nil => simp [best?] at h
  | cons first rest =>
      have hfold : ∀ (l : List (Candidate Extended μ)) (a : Candidate Extended μ),
          l.foldl (fun best c => if best.score < c.score then c else best) a ∈ a :: l := by
        intro l
        induction l with
        | nil => simp
        | cons b l ih =>
            intro a
            rw [List.foldl_cons]
            split
            · exact List.mem_cons_of_mem a (ih b)
            · rcases List.mem_cons.mp (ih a) with heq | hmem
              · rw [heq]
                exact List.mem_cons_self
              · exact List.mem_cons_of_mem a (List.mem_cons_of_mem b hmem)
      rw [best?, Option.some.injEq] at h
      rw [← h]
      exact hfold rest first

theorem best?_eq_none_iff {cs : List (Candidate Extended μ)} : best? cs = none ↔ cs = [] := by
  cases cs <;> simp [best?]

end Candidate

namespace EdgeBranching

/-- A candidate of a node: it splits on a fractional edge. -/
def SplitsOn (b : EdgeBranching Extended) (id : Nat) (values : EdgeValues Extended)
    (c : Candidate Extended Move) : Prop :=
  ∃ e x, (e, x) ∈ values.entries ∧ Fractional b.tolerance x ∧
    c.decisions = [⟨2 * id, .fix e⟩, ⟨2 * id + 1, .remove e⟩]

theorem candidate?_eq_ok {b : EdgeBranching Extended} {id : Nat} {e : Edge} {value : Extended}
    {result : Option (Candidate Extended Move)} (h : b.candidate? id e value = .ok result) :
    (result = none ∧ ¬Fractional b.tolerance value) ∨
      ∃ c, result = some c ∧ Fractional b.tolerance value ∧
        c.decisions = [⟨2 * id, .fix e⟩, ⟨2 * id + 1, .remove e⟩] := by
  obtain ⟨frac, hfrac, h⟩ := except_bind_eq_ok.mp h
  split at h
  · rename_i hwhole
    left
    refine ⟨(Except.ok.inj h).symm, ?_⟩
    rintro ⟨frac', hfrac', hlow, hhigh⟩
    rw [hfrac] at hfrac'
    obtain rfl := Except.ok.inj hfrac'
    exact hwhole.elim hlow hhigh
  · rename_i hfractional
    rw [not_or] at hfractional
    exact Or.inr ⟨_, (Except.ok.inj h).symm, ⟨frac, hfrac, hfractional⟩, rfl⟩

theorem allCandidates_eq_ok {b : EdgeBranching Extended} {id : Nat}
    {entries : List (Edge × Extended)} {cs : List (Candidate Extended Move)}
    (h : b.allCandidates id entries = .ok cs) :
    (∀ c ∈ cs, b.SplitsOn id ⟨entries⟩ c) ∧
      ((∃ entry ∈ entries, Fractional b.tolerance entry.2) → cs ≠ []) := by
  induction entries generalizing cs with
  | nil =>
      rw [← Except.ok.inj h]
      simp
  | cons entry rest ih =>
      obtain ⟨e, value⟩ := entry
      rw [allCandidates] at h
      obtain ⟨first, hfirst, h⟩ := except_bind_eq_ok.mp h
      obtain ⟨others, hothers, h⟩ := except_bind_eq_ok.mp h
      obtain ⟨hsplit, hsome⟩ := ih hothers
      rw [← Except.ok.inj h]
      refine ⟨fun c hc => ?_, ?_⟩
      · rcases List.mem_append.mp hc with hc | hc
        · rcases candidate?_eq_ok hfirst with ⟨rfl, -⟩ | ⟨c', rfl, hfractional, hdecisions⟩
          · cases hc
          · rw [Option.toList_some, List.mem_singleton] at hc
            exact ⟨e, value, List.mem_cons_self, hfractional, hc ▸ hdecisions⟩
        · obtain ⟨e', x, hmem, hrest⟩ := hsplit c hc
          exact ⟨e', x, List.mem_cons_of_mem _ hmem, hrest⟩
      · rintro ⟨entry, hentry, hfractional⟩ hnil
        obtain ⟨hnone, hothersNil⟩ := List.append_eq_nil_iff.mp hnil
        rcases List.mem_cons.mp hentry with rfl | hentry
        · rcases candidate?_eq_ok hfirst with ⟨-, hnot⟩ | ⟨c, rfl, -⟩
          · exact hnot hfractional
          · simp at hnone
        · exact hsome ⟨entry, hentry, hfractional⟩ hothersNil

theorem candidates_finite {b : EdgeBranching Extended} {id : Nat} {values : EdgeValues Extended}
    (hfinite : ∀ entry ∈ values.entries, ∃ x : Rat, entry.2 = .finite x) :
    ∃ cs, b.candidates id values = .ok cs := by
  have hall : ∀ entries : List (Edge × Extended),
    (∀ entry ∈ entries, ∃ x : Rat, entry.2 = .finite x) →
      ∃ cs, b.allCandidates id entries = .ok cs := by
    intro entries
    induction entries with
    | nil => exact fun _ => ⟨[], rfl⟩
    | cons entry rest ih =>
        intro hentries
        obtain ⟨e, value⟩ := entry
        obtain ⟨x, rfl : value = .finite x⟩ := hentries (e, value) List.mem_cons_self
        obtain ⟨f, hf, -⟩ := fraction_finite x
        obtain ⟨others, hothers⟩ := ih fun entry h => hentries entry (List.mem_cons_of_mem _ h)
        have hfirst : ∃ first, b.candidate? id e (.finite x) = .ok first := by
          rw [candidate?, hf]
          simp only [bind, Except.bind]
          split
          · exact ⟨none, rfl⟩
          · exact ⟨_, rfl⟩
        obtain ⟨first, hfirst⟩ := hfirst
        exact ⟨first.toList ++ others, by rw [allCandidates, hfirst, hothers]; rfl⟩
  obtain ⟨cs, hcs⟩ := hall values.entries hfinite
  exact ⟨_, by rw [candidates, hcs]; rfl⟩

/-- What edge branching proposes splits on fractional edges; and with a positive number of
candidates it proposes something for values that are not integral. -/
theorem candidates_eq_ok {b : EdgeBranching Extended} {id : Nat} {values : EdgeValues Extended}
    {cs : List (Candidate Extended Move)} (h : b.candidates id values = .ok cs) :
    (∀ c ∈ cs, b.SplitsOn id values c) ∧
      (0 < b.maxCandidates → values.isIntegral b.tolerance = .ok false → cs ≠ []) := by
  obtain ⟨all, hall, h⟩ := except_bind_eq_ok.mp h
  obtain ⟨hsplit, hsome⟩ := allCandidates_eq_ok hall
  have hsorted := Except.ok.inj h
  refine ⟨fun c hc => ?_, fun hpos hintegral hnil => ?_⟩
  · rw [← hsorted, leading] at hc
    apply hsplit
    split at hc
    · exact List.mem_mergeSort.mp (List.mem_of_mem_take hc)
    · exact List.mem_mergeSort.mp (List.mem_of_mem_take hc)
  · rw [← hsorted, leading, if_neg (by omega), List.take_eq_nil_iff] at hnil
    rcases hnil with hzero | hnil
    · omega
    · apply hsome (exists_fractional hintegral)
      rw [← List.length_eq_zero_iff, ← List.length_mergeSort all, hnil]
      rfl

/-! ### Candidates that come in order -/

def inOrder (b : EdgeBranching Extended) (id : Nat) (values : EdgeValues Extended) : Bool :=
  match b.allCandidates id values.entries with
  | .ok all => decide (all.Pairwise fun c d => ¬c.score < d.score)
  | .error _ => false

/-- The candidates, which are sorted only if they do not come in order. -/
def ready (b : EdgeBranching Extended) (id : Nat) (values : EdgeValues Extended) :
    Except Fault (List (Candidate Extended Move)) :=
  if b.inOrder id values then (b.allCandidates id values.entries).map (leading b.maxCandidates)
  else b.candidates id values

/-- Sorting does not change candidates that come in order. As the sort does not reduce, a search is
followed with these candidates instead. -/
theorem candidates_eq_ready (b : EdgeBranching Extended) (id : Nat)
    (values : EdgeValues Extended) : b.candidates id values = b.ready id values := by
  unfold ready
  split
  · rename_i hordered
    unfold inOrder at hordered
    split at hordered
    · rename_i all hall
      rw [candidates, hall]
      show Except.ok (leading _ (all.mergeSort _)) = _
      rw [List.mergeSort_of_pairwise]
      · rfl
      · simpa using hordered
    · cases hordered
  · rfl

end EdgeBranching

end TourSearch
