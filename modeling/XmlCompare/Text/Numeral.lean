/-!
# Bounded numerals

A numeral is read from left to right; its value must stay below a limit. A character that is no
digit is noticed before the value is found too large, and both at the first place where they
arise. `natural?` reads the decimal numerals of paths and options, which may carry one plus sign.
-/

set_option autoImplicit false

namespace XmlCompare.Text

/-- Why a numeral could not be read. -/
inductive NumeralFault
  | empty
  | invalidDigit
  | tooLarge
  deriving DecidableEq, Repr

/-- What is said about a text that is no number. -/
def NumeralFault.message : NumeralFault → String
  | .empty => "cannot parse integer from empty string"
  | .invalidDigit => "invalid digit found in string"
  | .tooLarge => "number too large to fit in target type"

/-- The value of a hexadecimal digit, in either case. -/
def hexDigit? (c : Char) : Option Nat :=
  if '0' ≤ c ∧ c ≤ '9' then some (c.toNat - '0'.toNat)
  else if 'a' ≤ c ∧ c ≤ 'f' then some (c.toNat - 'a'.toNat + 10)
  else if 'A' ≤ c ∧ c ≤ 'F' then some (c.toNat - 'A'.toNat + 10)
  else none

/-- The value of a digit in a base of at most sixteen. -/
def digit? (base : Nat) (c : Char) : Option Nat :=
  (hexDigit? c).filter (· < base)

/-- Reads the digits that follow a numeral whose value so far is `value`. -/
def readDigits (base limit value : Nat) : List Char → Except NumeralFault Nat
  | [] => .ok value
  | c :: cs =>
    match digit? base c with
    | none => .error .invalidDigit
    | some d =>
      if value * base + d < limit then readDigits base limit (value * base + d) cs
      else .error .tooLarge

/-- Reads an unsigned numeral with a value below `limit`. -/
def readNumeral (base limit : Nat) (cs : List Char) : Except NumeralFault Nat :=
  if cs.isEmpty then .error .empty else readDigits base limit 0 cs

/-- The numbers that paths, options and requests can hold are below this one. -/
def wordLimit : Nat := Nat.pow 2 64

/-- A decimal numeral below `wordLimit`, with at most one plus sign in front. -/
def natural? (cs : List Char) : Option Nat :=
  (readNumeral 10 wordLimit ((dropPlus cs))).toOption
where
  /-- Removes one plus sign at the start. -/
  dropPlus : List Char → List Char
    | '+' :: cs => cs
    | cs => cs

/-- A value that was read is below the limit. -/
theorem readDigits_lt {base limit value n : Nat} {cs : List Char} (hv : value < limit)
    (h : readDigits base limit value cs = .ok n) : n < limit := by
  induction cs generalizing value with
  | nil => simp only [readDigits, Except.ok.injEq] at h; omega
  | cons c cs ih =>
    rw [readDigits] at h
    split at h
    · cases h
    · split at h
      · rename_i hlt; exact ih hlt h
      · cases h

end XmlCompare.Text
