import Mathlib.Data.Nat.Basic
import XmlCompare.Text.Numeral

/-!
# Numerals that were written

A number is written in decimal digits, and reading digits goes from left to right. So the digits
of a number are read back as the number, up to the limit that what is read has to stay below.
-/

set_option autoImplicit false

namespace XmlCompare.Text

/-- What follows some digits is read from their value on. -/
theorem readDigits_append (base limit value : Nat) (front back : List Char) :
    readDigits base limit value (front ++ back) =
      (readDigits base limit value front).bind fun found => readDigits base limit found back := by
  induction front generalizing value with
  | nil => rfl
  | cons c front ih =>
    rw [List.cons_append, readDigits, readDigits]
    split
    · rfl
    · rename_i d hd
      split
      · exact ih (value * base + d)
      · rfl

/-- A decimal digit is read as its value. -/
theorem digit?_digitChar {d : Nat} (h : d < 10) : digit? 10 d.digitChar = some d := by
  have hdigits : ∀ n : Fin 10, digit? 10 (n : Nat).digitChar = some (n : Nat) := by decide
  exact hdigits ⟨d, h⟩

/-- The decimal digits of a number are read as the number, if it is below the limit. -/
theorem readDigits_toDigits (limit n : Nat) : readDigits 10 limit 0 (Nat.toDigits 10 n) =
    if n < limit then .ok n else .error .tooLarge := by
  induction n using Nat.strongRecOn with
  | ind n ih =>
    rcases Nat.lt_or_ge n 10 with hlt | hge
    · rw [Nat.toDigits_of_lt_base hlt, readDigits, digit?_digitChar hlt]
      simp only [Nat.zero_mul, Nat.zero_add, readDigits]
    · rw [Nat.toDigits_of_base_le (by decide) hge, readDigits_append, ih (n / 10) (by omega)]
      have hvalue : n / 10 * 10 + n % 10 = n := by omega
      by_cases hfront : n / 10 < limit
      · rw [if_pos hfront, Except.bind, readDigits, digit?_digitChar (Nat.mod_lt n (by decide))]
        simp only [hvalue, readDigits]
      · rw [if_neg hfront, if_neg (by omega), Except.bind]

/-- What begins with a digit has no plus sign to remove. -/
theorem dropPlus_toDigits (n : Nat) :
    natural?.dropPlus (Nat.toDigits 10 n) = Nat.toDigits 10 n := by
  unfold natural?.dropPlus
  split
  · rename_i cs hdigits
    have hplus : '+' ∈ Nat.toDigits 10 n := by simp [hdigits]
    exact absurd (Nat.isDigit_of_mem_toDigits (by decide) (by decide) hplus) (by decide)
  · rfl

/-- A number that is written in digits is read back, if it is one of those that can be read. -/
theorem natural?_toDigits (n : Nat) :
    natural? (Nat.toDigits 10 n) = if n < wordLimit then some n else none := by
  have hne : (Nat.toDigits 10 n).isEmpty = false := by
    simp [Nat.toDigits_ne_nil]
  rw [natural?, dropPlus_toDigits, readNumeral, hne, if_neg (by decide), readDigits_toDigits]
  split
  · rfl
  · rfl

/-- A number that was read is one of those that can be read. -/
theorem lt_wordLimit_of_natural? {cs : List Char} {n : Nat} (h : natural? cs = some n) :
    n < wordLimit := by
  unfold natural? readNumeral at h
  split at h
  · cases h
  · cases hread : readDigits 10 wordLimit 0 (natural?.dropPlus cs) with
    | error fault => rw [hread] at h; cases h
    | ok found =>
      rw [hread] at h
      obtain rfl : found = n := Option.some.inj h
      exact readDigits_lt (by decide) hread

end XmlCompare.Text
