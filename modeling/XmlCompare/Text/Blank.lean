/-!
# Blank characters and blank text

Two classes of blank characters are in use. Markup is separated by the four characters that XML
calls white space (`isMarkupBlank`); character data is trimmed, tested and normalised by the
Unicode property `White_Space` (`isBlank`).

Normalising a text keeps its words and puts one space between neighbours, so two texts have the
same normal form exactly when they have the same words; a text without words has none.
-/

set_option autoImplicit false

namespace XmlCompare.Text

/-- Space, tab, carriage return and line feed: what separates names and attributes in a tag. -/
def isMarkupBlank (c : Char) : Bool :=
  c = ' ' || c = '\t' || c = '\n' || c = '\r'

/-- The ranges of code points with the Unicode property `White_Space`, both ends included. -/
def blankRanges : List (Nat × Nat) :=
  [(0x09, 0x0D), (0x20, 0x20), (0x85, 0x85), (0xA0, 0xA0), (0x1680, 0x1680), (0x2000, 0x200A),
   (0x2028, 0x2029), (0x202F, 0x202F), (0x205F, 0x205F), (0x3000, 0x3000)]

/-- A character with the Unicode property `White_Space`. -/
def isBlank (c : Char) : Bool :=
  blankRanges.any fun (lo, hi) => lo ≤ c.toNat && c.toNat ≤ hi

/-- What is left of a text when the blank characters at its start and at its end are dropped. -/
def trim (cs : List Char) : List Char :=
  ((cs.dropWhile isBlank).reverse.dropWhile isBlank).reverse

/-- The maximal runs of characters that are not blank. -/
def words (cs : List Char) : List (List Char) :=
  (cs.splitOnP isBlank).filter (· ≠ [])

/-- The words joined by one space each, or nothing when there is no word. -/
def normalize (cs : List Char) : Option (List Char) :=
  match words cs with
  | [] => none
  | ws => some ([' '].intercalate ws)

/-- A text without the blanks at its start and its end. -/
def trimmed (s : String) : String := String.ofList (trim s.toList)

/-- The text holds nothing but blanks. -/
def isBlankText (s : String) : Bool := s.toList.all isBlank

/-- The normal form of a string: its words with one space between neighbours. -/
def normalized (s : String) : Option String := (normalize s.toList).map String.ofList

/-- The characters that separate markup are blank in character data too. -/
theorem isBlank_of_isMarkupBlank {c : Char} (h : isMarkupBlank c = true) : isBlank c = true := by
  simp only [isMarkupBlank, Bool.or_eq_true, decide_eq_true_eq] at h
  rcases h with ((rfl | rfl) | rfl) | rfl <;> decide

end XmlCompare.Text
