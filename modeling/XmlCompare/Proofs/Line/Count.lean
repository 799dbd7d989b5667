import Mathlib.Data.List.Basic
import XmlCompare.Line.Edit
import XmlCompare.Proofs.Line.Feeds

/-!
# How many lines a text has

A line as a reader sees it is a full line without what ends it, so both ways of cutting a text into
lines come to the same number of them. Every byte of a text is on one of its lines, and an edit
succeeds exactly if it addresses lines that the text has.
-/

set_option autoImplicit false

namespace XmlCompare

namespace Line

variable {line rest cs : List Char}

/-- A text is made line by line: it is a line that is not ended, or a line that a line feed ends and
a text behind it. -/
theorem line_induction {P : List Char → Prop} (last : ∀ line, '\n' ∉ line → P line)
    (ended : ∀ line rest, '\n' ∉ line → P rest → P (line ++ '\n' :: rest)) (cs : List Char) :
    P cs := by
  generalize hlength : cs.length = n
  induction n using Nat.strongRecOn generalizing cs with
  | ind n ih =>
    by_cases hfeed : '\n' ∈ cs
    · obtain ⟨line, rest, rfl, hline⟩ := List.eq_append_cons_of_mem hfeed
      have hshorter : rest.length < n := by
        rw [List.length_append, List.length_cons] at hlength
        omega
      exact ended line rest hline (ih _ hshorter rest rfl)
    · exact last cs hfeed

/-- Up to the first line feed there is one full line. -/
theorem fullLines_ended (h : '\n' ∉ line) (rest : List Char) :
    fullLines (line ++ '\n' :: rest) = (line ++ ['\n']) :: fullLines rest := by
  induction line with
  | nil => rfl
  | cons c line ih =>
    obtain ⟨hc, hline⟩ := not_or.mp (List.mem_cons.not.mp h)
    rw [List.cons_append, fullLines, if_neg fun heq => hc heq.symm, ih hline]
    rfl

/-- Without a line feed there is one full line, unless there is nothing. -/
theorem fullLines_last (h : '\n' ∉ line) : fullLines line = if line = [] then [] else [line] := by
  induction line with
  | nil => rfl
  | cons c line ih =>
    obtain ⟨hc, hline⟩ := not_or.mp (List.mem_cons.not.mp h)
    rw [fullLines, if_neg fun heq => hc heq.symm, ih hline]
    cases line <;> rfl

/-- A piece that is not the last one was ended by a line feed. -/
theorem ofPieces_cons {pieces : List (List Char)} (h : pieces ≠ []) (piece : List Char) :
    ofPieces (piece :: pieces) = dropReturn piece :: ofPieces pieces := by
  cases pieces with
  | nil => exact absurd rfl h
  | cons next pieces => rfl

/-- Up to the first line feed there is one line. -/
theorem lines_ended (h : '\n' ∉ line) (rest : List Char) :
    lines (line ++ '\n' :: rest) = dropReturn line :: lines rest := by
  have hline : ∀ c ∈ line, (c == '\n') = false := fun c hc =>
    beq_eq_false_iff_ne.mpr fun heq => h (heq ▸ hc)
  rw [lines, List.splitOn_eq_splitOnP,
    List.splitOnP_append_cons_of_forall_mem hline '\n' (beq_self_eq_true _) rest,
    ofPieces_cons (List.splitOnP_ne_nil _ _)]
  rfl

/-- Without a line feed there is one line, unless there is nothing. -/
theorem lines_last (h : '\n' ∉ line) : lines line = if line = [] then [] else [line] := by
  have hline : ∀ c ∈ line, (c == '\n') = false := fun c hc =>
    beq_eq_false_iff_ne.mpr fun heq => h (heq ▸ hc)
  rw [lines, List.splitOn_eq_splitOnP, List.splitOnP_eq_singleton hline]
  cases line <;> rfl

/-- A full line without the line feed that ends it and the carriage return in front of that. What no
line feed ends is left as it is. -/
def visible (line : List Char) : List Char :=
  if endsLine line then dropReturn line.dropLast else line

/-- Of a line that is ended its ending is not visible. -/
theorem visible_ended (line : List Char) : visible (line ++ ['\n']) = dropReturn line := by
  rw [visible, if_pos (by simp [endsLine]), List.dropLast_concat]

/-- A line that is not ended is visible as it is. -/
theorem visible_last (h : '\n' ∉ line) : visible line = line := by
  rw [visible, if_neg]
  simp only [endsLine, decide_eq_true_eq]
  exact fun hlast => h (List.mem_of_getLast? hlast)

/-- A reader sees the full lines without what ends them. -/
theorem lines_eq_map (cs : List Char) : lines cs = (fullLines cs).map visible := by
  induction cs using line_induction with
  | last line hline =>
    rw [lines_last hline, fullLines_last hline]
    split
    · rfl
    · rw [List.map_singleton, visible_last hline]
  | ended line rest hline ih =>
    rw [lines_ended hline, fullLines_ended hline, List.map_cons, visible_ended, ih]

/-- There are as many lines as full lines. -/
theorem length_lines (cs : List Char) : (lines cs).length = (fullLines cs).length := by
  rw [lines_eq_map, List.length_map]

/-- A text has as many lines as full lines. -/
theorem length_linesOf (text : String) :
    (linesOf text).length = (fullLines text.toList).length := by
  rw [linesOf, List.length_map, length_lines]

/-- An edit succeeds exactly if it addresses lines of the text, whatever comes in their place. -/
theorem exists_replaceLines_iff {text : String} {first last : Nat} (replacement : String) :
    (∃ result, replaceLines text first last replacement = .ok result) ↔
      1 ≤ first ∧ first ≤ last ∧ last ≤ (linesOf text).length := by
  rw [length_linesOf, replaceLines]
  unfold replaceChars
  by_cases hrange : first = 0 ∨ first > last ∨ last > (fullLines text.toList).length
  · simp only [if_pos hrange, Except.map]
    constructor
    · rintro ⟨result, hresult⟩
      cases hresult
    · intro h
      omega
  · simp only [if_neg hrange, Except.map]
    exact ⟨fun _ => by omega, fun _ => ⟨_, rfl⟩⟩

end Line

namespace LineTable

open Text (byteSize)

/-- Of the lines behind the first one, fewer begin up to a byte of a text than it has lines. -/
theorem countP_startsAfter_lt {offset distance : Nat} {cs : List Char}
    (h : distance < byteSize cs) :
    (startsAfter offset cs).countP (· ≤ offset + distance) < (Line.fullLines cs).length := by
  induction cs using Line.line_induction generalizing offset distance with
  | last line hline =>
    have hne : line ≠ [] := by
      rintro rfl
      exact Nat.not_lt_zero _ h
    rw [startsAfter_eq_nil hline, Line.fullLines_last hline, if_neg hne]
    exact Nat.zero_lt_one
  | ended line rest hline ih =>
    have hnone : startsAfter offset line = [] := startsAfter_eq_nil hline offset
    rw [Line.fullLines_ended hline, List.length_cons, startsAfter_append, hnone, List.nil_append,
      startsAfter, if_pos rfl, List.countP_cons]
    have hfeed : '\n'.utf8Size = 1 := rfl
    simp only [Text.byteSize_append, byteSize, hfeed] at h ⊢
    by_cases hbehind : byteSize line + 1 ≤ distance
    · -- The byte is behind the first line.
      have hrest := @ih (offset + byteSize line + 1) (distance - (byteSize line + 1)) (by omega)
      have hsame : offset + byteSize line + 1 + (distance - (byteSize line + 1)) =
          offset + distance := by omega
      rw [hsame] at hrest
      split <;> omega
    · have hzero : (startsAfter (offset + byteSize line + 1) rest).countP
          (· ≤ offset + distance) = 0 := by
        rw [List.countP_eq_zero]
        intro start hstart
        have := bounds_of_mem_startsAfter hstart
        simp only [decide_eq_true_eq]
        omega
      rw [hzero, if_neg (by simp only [decide_eq_true_eq]; omega)]
      exact Nat.zero_lt_succ _

/-- Every byte of a text is on one of its lines. -/
theorem line_le_length {text : String} {offset : Nat} (h : offset < byteSize text.toList) :
    (ofText text).line offset ≤ (Line.linesOf text).length := by
  have hlt := @countP_startsAfter_lt 0 offset _ h
  rw [Nat.zero_add] at hlt
  rw [Line.length_linesOf, line, ofText, List.countP_cons_of_pos (by simp)]
  exact hlt

end LineTable

end XmlCompare
