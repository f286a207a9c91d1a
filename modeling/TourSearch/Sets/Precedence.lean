/-!
Strict linear orders, given by a test. They fix one written form for every finite set: its members
in order. Lists are ordered letter by letter, a list before its extensions.
-/

namespace TourSearch

class Precedence (α : Type) where
  before : α → α → Bool
  irrefl : ∀ a, before a a = false
  trans : ∀ {a b c}, before a b = true → before b c = true → before a c = true
  connected : ∀ {a b}, before a b = false → before b a = false → a = b

namespace Precedence

variable {α : Type} [Precedence α]

theorem asymm {a b : α} (h : before a b = true) : before b a = false := by
  cases hba : before b a with
  | false => rfl
  | true =>
      have := trans h hba
      rw [irrefl] at this
      contradiction

theorem ne_of_before {a b : α} (h : before a b = true) : a ≠ b := by
  intro hab
  subst hab
  rw [irrefl] at h
  contradiction

/-- The first place where two lists differ decides; a list stands before its extensions. -/
def lexBefore : List α → List α → Bool
  | [], [] => false
  | [], _ :: _ => true
  | _ :: _, [] => false
  | a :: as, b :: bs => before a b || (!before b a && lexBefore as bs)

theorem lexBefore_irrefl (as : List α) : lexBefore as as = false := by
  induction as with
  | nil => rfl
  | cons a as ih => simp [lexBefore, irrefl, ih]

theorem lexBefore_connected {as bs : List α} (h₁ : lexBefore as bs = false)
    (h₂ : lexBefore bs as = false) : as = bs := by
  induction as generalizing bs with
  | nil =>
      cases bs with
      | nil => rfl
      | cons b bs => simp [lexBefore] at h₁
  | cons a as ih =>
      cases bs with
      | nil => simp [lexBefore] at h₂
      | cons b bs =>
          simp only [lexBefore, Bool.or_eq_false_iff, Bool.and_eq_false_iff,
            Bool.not_eq_false'] at h₁ h₂
          have hab : a = b := connected h₁.1 h₂.1
          subst hab
          simp only [irrefl, Bool.false_eq_true, false_or, true_and] at h₁ h₂
          rw [ih h₁ h₂]

theorem lexBefore_trans {as bs cs : List α} (h₁ : lexBefore as bs = true)
    (h₂ : lexBefore bs cs = true) : lexBefore as cs = true := by
  induction as generalizing bs cs with
  | nil =>
      cases cs with
      | nil => cases bs <;> simp [lexBefore] at h₂
      | cons c cs => rfl
  | cons a as ih =>
      cases bs with
      | nil => simp [lexBefore] at h₁
      | cons b bs =>
          cases cs with
          | nil => simp [lexBefore] at h₂
          | cons c cs =>
              simp only [lexBefore, Bool.or_eq_true, Bool.and_eq_true, Bool.not_eq_true'] at *
              rcases h₁ with hab | ⟨hba, has⟩
              · rcases h₂ with hbc | ⟨hcb, _⟩
                · exact Or.inl (trans hab hbc)
                · cases hbc : before b c with
                  | true => exact Or.inl (trans hab hbc)
                  | false => exact Or.inl (connected hbc hcb ▸ hab)
              · cases hab : before a b with
                | true =>
                    rcases h₂ with hbc | ⟨hcb, _⟩
                    · exact Or.inl (trans hab hbc)
                    · cases hbc : before b c with
                      | true => exact Or.inl (trans hab hbc)
                      | false => exact Or.inl (connected hbc hcb ▸ hab)
                | false =>
                    have heq : a = b := connected hab hba
                    subst heq
                    rcases h₂ with hac | ⟨hca, hbs⟩
                    · exact Or.inl hac
                    · exact Or.inr ⟨hca, ih has hbs⟩

end Precedence

end TourSearch
