import XmlCompare.Text.Numeral

/-!
# Checked arithmetic

Offsets and numbers of lines are kept in words of sixty-four bits. A sum that takes more than a word
and a difference below zero are no results: there the program stops, or, where its arithmetic is not
checked, goes on with a number that is wrong.
-/

set_option autoImplicit false

namespace XmlCompare.Word

/-- The sum of two words, if it is a word. -/
def add? (a b : Nat) : Option Nat := if a + b < Text.wordLimit then some (a + b) else none

/-- The difference of two words, if it is a word. -/
def sub? (a b : Nat) : Option Nat := if b ≤ a then some (a - b) else none

/-- A sum is there exactly if it is below the limit. -/
theorem add?_eq_some_iff {a b c : Nat} :
    add? a b = some c ↔ a + b < Text.wordLimit ∧ a + b = c := by
  rw [add?, Option.ite_none_right_eq_some, Option.some.injEq]

/-- A difference is there exactly if it is not below zero. -/
theorem sub?_eq_some_iff {a b c : Nat} : sub? a b = some c ↔ b ≤ a ∧ a - b = c := by
  rw [sub?, Option.ite_none_right_eq_some, Option.some.injEq]

end XmlCompare.Word
