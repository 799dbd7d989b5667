/-!
# The lines of a text

A text is cut into lines in two ways. `fullLines` keeps the line feed that ends a line, so the
lines put together are the text; edits work on these. `lines` is what a reader sees: the line feed
is gone, and so is a carriage return directly in front of it. Neither has an empty last line when
the text ends with a line feed.
-/

set_option autoImplicit false

namespace XmlCompare.Line

/-- The lines of a text, each with the line feed that ends it. -/
def fullLines : List Char → List (List Char)
  | [] => []
  | c :: cs =>
    if c = '\n' then ['\n'] :: fullLines cs
    else
      match fullLines cs with
      | [] => [[c]]
      | line :: rest => (c :: line) :: rest

/-- A line without the carriage return at its end, if it has one. -/
def dropReturn (line : List Char) : List Char :=
  if line.getLast? = some '\r' then line.dropLast else line

/-- Of the pieces between line feeds, all but the last were ended by one; the last is a line only
if it holds something, and is left as it is. -/
def ofPieces : List (List Char) → List (List Char)
  | [] => []
  | [last] => if last.isEmpty then [] else [last]
  | piece :: rest => dropReturn piece :: ofPieces rest

/-- The lines of a text as a reader sees them. -/
def lines (cs : List Char) : List (List Char) := ofPieces (cs.splitOn '\n')

/-- The lines of a string as a reader sees them. -/
def linesOf (text : String) : List String := (lines text.toList).map String.ofList

/-- The lines with their line feeds make up the text. -/
theorem flatten_fullLines (cs : List Char) : (fullLines cs).flatten = cs := by
  induction cs with
  | nil => rfl
  | cons c cs ih =>
    rw [fullLines]
    split
    · rename_i h; simp [ih, h]
    · split
      · rename_i h; simp_all
      · rename_i h; simp_all

end XmlCompare.Line
