import XmlCompare.Word

/-!
# From byte offsets to lines

A line table holds the byte offsets at which the lines of a text begin. Line and column of an
offset are read off it; lines end at a line feed, and columns count bytes from one.
-/

set_option autoImplicit false

namespace XmlCompare

/-- A place in a text: a line, and a column in bytes, both counted from one. -/
structure Location where
  line : Nat
  column : Nat
  deriving DecidableEq, Repr

/-- The byte offsets at which the lines of a text begin, in increasing order. -/
structure LineTable where
  starts : List Nat
  deriving DecidableEq, Repr

namespace LineTable

/-- The offsets just behind the line feeds of a text that begins at `offset`. -/
def startsAfter (offset : Nat) : List Char → List Nat
  | [] => []
  | c :: cs =>
    if c = '\n' then (offset + c.utf8Size) :: startsAfter (offset + c.utf8Size) cs
    else startsAfter (offset + c.utf8Size) cs

/-- The line table of a text. The first line begins at offset zero. -/
def ofText (text : String) : LineTable := ⟨0 :: startsAfter 0 text.toList⟩

/-- The line of an offset: the number of lines that begin at it or before it. -/
def line (t : LineTable) (offset : Nat) : Nat := t.starts.countP (· ≤ offset)

/-- The byte at which a line begins; the first line does so at zero. -/
def lineStart (t : LineTable) (line : Nat) : Nat := t.starts.getD (line - 1) 0

/-- Line and column of an offset. An offset behind the text falls on the last line. -/
def location (t : LineTable) (offset : Nat) : Location :=
  ⟨t.line offset, offset - t.lineStart (t.line offset) + 1⟩

/-- Line and column of an offset in checked arithmetic. There is none if a line has no start, or a
number is no word. -/
def location? (t : LineTable) (offset : Nat) : Option Location := do
  let line := t.line offset
  let index ← Word.sub? line 1
  let start ← t.starts[index]?
  let distance ← Word.sub? offset start
  let column ← Word.add? distance 1
  return ⟨line, column⟩

/-- Every offset has a line, and lines are counted from one. -/
theorem one_le_line_ofText (text : String) (offset : Nat) : 1 ≤ (ofText text).line offset := by
  simp [line, ofText]

end LineTable

end XmlCompare
