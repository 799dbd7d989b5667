import XmlCompare.Line.Split
import XmlCompare.Report.Finding
import XmlCompare.Word

/-!
# Blocks

For display, the lines of a text are grouped into blocks: a line that a finding covers begins a
block that goes on to the end of the finding, and the lines between such blocks make blocks of
their own. Where several findings cover a line the first of them counts.
-/

set_option autoImplicit false

namespace XmlCompare

/-- A run of lines, with the finding that covers it if there is one. -/
structure Block where
  firstLine : Nat
  lastLine : Nat
  finding : Option Finding
  deriving DecidableEq, Repr

namespace Block

/-- The lines of a text that belong to a block. -/
def lines (b : Block) (text : String) : List String :=
  ((Line.linesOf text).drop (b.firstLine - 1)).take (b.lastLine + 1 - b.firstLine)

/-- The first finding whose lines hold the line. -/
def covering? (findings : List Finding) (line : Nat) : Option Finding :=
  findings.find? (·.lines.containsLine line)

/-- A finding over a line does not end before it. -/
theorem le_last_of_covering? {findings : List Finding} {line : Nat} {f : Finding}
    (h : covering? findings line = some f) : line ≤ f.lines.last := by
  unfold covering? at h
  have hf := List.find?_some h
  exact ((f.lines.containsLine_iff line).mp hf).2

/-- The last line of the run of lines without a finding that `line` belongs to. -/
def lastPlain (count : Nat) (findings : List Finding) (line : Nat) : Nat :=
  if line < count ∧ covering? findings (line + 1) = none then
    lastPlain count findings (line + 1)
  else line
termination_by count - line

/-- A stretch without findings does not end before it begins. -/
theorem le_lastPlain (count : Nat) (findings : List Finding) (line : Nat) :
    line ≤ lastPlain count findings line := by
  fun_induction lastPlain count findings line with
  | case1 line _ ih => omega
  | case2 line _ => omega

/-- The block that begins at a line. -/
def blockAt (count : Nat) (findings : List Finding) (line : Nat) : Block :=
  match covering? findings line with
  | some f => ⟨line, min f.lines.last count, some f⟩
  | none => ⟨line, lastPlain count findings line, none⟩

/-- A block that begins at a line of the text has that line. -/
theorem le_last_blockAt {count line : Nat} (h : line ≤ count) (findings : List Finding) :
    line ≤ (blockAt count findings line).lastLine := by
  unfold blockAt
  split
  · rename_i f hf
    exact Nat.le_min.mpr ⟨le_last_of_covering? hf, h⟩
  · exact le_lastPlain count findings line

/-- The blocks of the lines from `line` to `count`. -/
def groupFrom (count : Nat) (findings : List Finding) (line : Nat) : List Block :=
  if h : line ≤ count then
    have := le_last_blockAt h findings
    blockAt count findings line ::
      groupFrom count findings ((blockAt count findings line).lastLine + 1)
  else []
termination_by count + 1 - line

/-- The blocks of the first `count` lines. -/
def group (count : Nat) (findings : List Finding) : List Block := groupFrom count findings 1

/-- The blocks of the lines from `line` to `count` in checked arithmetic. There are none if the line
behind one of them has a number that is no word. -/
def groupFrom? (count : Nat) (findings : List Finding) (line : Nat) : Option (List Block) :=
  if h : line ≤ count then
    match hnext : Word.add? (blockAt count findings line).lastLine 1 with
    | none => none
    | some next =>
      have : line < next := by
        rw [← (Word.add?_eq_some_iff.mp hnext).2]
        exact Nat.lt_succ_of_le (le_last_blockAt h findings)
      (groupFrom? count findings next).map (blockAt count findings line :: ·)
  else some []
termination_by count + 1 - line

/-- The blocks of a number of lines, which need not be that of a text, in checked arithmetic. -/
def group? (count : Nat) (findings : List Finding) : Option (List Block) :=
  groupFrom? count findings 1

end Block

end XmlCompare
