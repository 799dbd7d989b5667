/-!
# Ranges of lines

Lines are numbered from one. A range of lines is never empty and never begins before line one;
`LineRange.between` makes a range of any two numbers by raising what is too small.
-/

set_option autoImplicit false

namespace XmlCompare

/-- The lines from `first` to `last`, both included. -/
structure LineRange where
  first : Nat
  last : Nat
  one_le_first : 1 ≤ first
  first_le_last : first ≤ last
  deriving DecidableEq

namespace LineRange

/-- The range between two numbers: a first line below one is raised to one, and a last line
before the first is raised to the first. -/
def between (first last : Nat) : LineRange where
  first := max 1 first
  last := max (max 1 first) last
  one_le_first := Nat.le_max_left 1 first
  first_le_last := Nat.le_max_left _ last

/-- The range of one line. -/
def single (line : Nat) : LineRange := between line line

/-- All lines of the other range lie in this one. -/
def contains (r s : LineRange) : Bool := r.first ≤ s.first && s.last ≤ r.last

/-- The line is in the range. -/
def containsLine (r : LineRange) (line : Nat) : Bool := r.first ≤ line && line ≤ r.last

/-- Ranges are ordered by their first line, then by their last. -/
def compare (r s : LineRange) : Ordering :=
  (Ord.compare r.first s.first).then (Ord.compare r.last s.last)

/-- The range as it is written: both lines with a hyphen between them. -/
def text (r : LineRange) : String := toString r.first ++ "-" ++ toString r.last

instance : Inhabited LineRange := ⟨single 1⟩

/-- A line in a range is neither before its first nor behind its last. -/
theorem containsLine_iff (r : LineRange) (line : Nat) :
    r.containsLine line = true ↔ r.first ≤ line ∧ line ≤ r.last := by
  simp [containsLine]

/-- A range lies in another one when its first and its last line do. -/
theorem contains_iff (r s : LineRange) :
    r.contains s = true ↔ r.first ≤ s.first ∧ s.last ≤ r.last := by
  simp [contains]

/-- Two lines in order are the range between them. -/
theorem between_of_le {first last : Nat} (h₁ : 1 ≤ first) (h₂ : first ≤ last) :
    (between first last).first = first ∧ (between first last).last = last := by
  simp only [between]
  omega

end LineRange

end XmlCompare
