import TourSearch.Sets.Precedence

/-!
The order of texts: characters by code point, and texts by the first character in which they differ,
a text before its extensions.
-/

namespace TourSearch.Text

open Precedence

instance : Precedence Char where
  before c d := decide (c.toNat < d.toNat)
  irrefl c := by simp
  trans := by
    intro a b c h₁ h₂
    simp only [decide_eq_true_eq] at *
    omega
  connected := by
    intro a b h₁ h₂
    simp only [decide_eq_false_iff_not] at *
    exact Char.toNat_inj.mp (by omega)

instance : Precedence String where
  before s t := lexBefore s.toList t.toList
  irrefl s := lexBefore_irrefl s.toList
  trans := lexBefore_trans
  connected h₁ h₂ := String.ext (lexBefore_connected h₁ h₂)

/-- Texts from the first to the last; equal ones keep their order. -/
def sorted (texts : List String) : List String := texts.mergeSort fun s t => !before t s

end TourSearch.Text
