import Mathlib.Data.List.Count
import XmlCompare.Line.Table
import XmlCompare.Text.Cut

/-!
# Line feeds and line tables

The line of an offset counts the line feeds before it. Where something is put before a text, the
lines of the text begin as many bytes later.
-/

set_option autoImplicit false

namespace XmlCompare.LineTable

open Text (byteSize)

/-- The line starts of two texts follow each other, the second counted on from the first. -/
theorem startsAfter_append (offset : Nat) (before after : List Char) :
    startsAfter offset (before ++ after) =
      startsAfter offset before ++ startsAfter (offset + byteSize before) after := by
  induction before generalizing offset with
  | nil => rfl
  | cons c before ih =>
    rw [List.cons_append, startsAfter, startsAfter, ih, byteSize, ← Nat.add_assoc]
    split <;> rfl

/-- A line behind the first one begins behind a line feed, and that ends within the text. -/
theorem bounds_of_mem_startsAfter {offset start : Nat} {cs : List Char}
    (h : start ∈ startsAfter offset cs) : offset < start ∧ start ≤ offset + byteSize cs := by
  induction cs generalizing offset with
  | nil => cases h
  | cons c cs ih =>
    have hsize := c.utf8Size_pos
    -- What begins behind the first character is within the bounds.
    have hrest : start ∈ startsAfter (offset + c.utf8Size) cs →
        offset < start ∧ start ≤ offset + byteSize (c :: cs) := by
      intro hmem
      have := ih hmem
      rw [byteSize]
      omega
    rw [startsAfter] at h
    split at h
    · rcases List.mem_cons.mp h with rfl | h
      · rw [byteSize]
        omega
      · exact hrest h
    · exact hrest h

/-- Every line feed starts one line. -/
theorem length_startsAfter (offset : Nat) (cs : List Char) :
    (startsAfter offset cs).length = cs.count '\n' := by
  induction cs generalizing offset with
  | nil => rfl
  | cons c cs ih =>
    rw [startsAfter]
    split
    · rename_i hfeed
      rw [List.length_cons, ih, hfeed, List.count_cons_self]
    · rename_i hfeed
      rw [ih, List.count_cons_of_ne hfeed]

/-- A text without line feeds starts no line. -/
theorem startsAfter_eq_nil {cs : List Char} (h : '\n' ∉ cs) (offset : Nat) :
    startsAfter offset cs = [] := by
  rw [← List.length_eq_zero_iff, length_startsAfter, List.count_eq_zero]
  exact h

/-- The line behind a part of a text is one more than the line feeds in it. -/
theorem line_of_split {text : String} {before after : List Char}
    (h : text.toList = before ++ after) :
    (ofText text).line (byteSize before) = 1 + before.count '\n' := by
  have hbefore : (startsAfter 0 before).countP (· ≤ byteSize before) = before.count '\n' := by
    rw [← length_startsAfter 0, List.countP_eq_length]
    intro start hstart
    have := bounds_of_mem_startsAfter hstart
    simp only [decide_eq_true_eq]
    omega
  have hafter : (startsAfter (0 + byteSize before) after).countP (· ≤ byteSize before) = 0 := by
    rw [List.countP_eq_zero]
    intro start hstart
    have := bounds_of_mem_startsAfter hstart
    simp only [decide_eq_true_eq]
    omega
  rw [line, ofText, h, startsAfter_append, List.countP_cons, List.countP_append, hbefore, hafter]
  simp [Nat.add_comm]

/-- A later offset is on a later line, if not on the same one. -/
theorem line_mono (t : LineTable) {offset offset' : Nat} (h : offset ≤ offset') :
    t.line offset ≤ t.line offset' := by
  refine List.countP_mono_left fun start _ hstart => ?_
  rw [decide_eq_true_eq] at hstart ⊢
  exact Nat.le_trans hstart h

/-- What stands before a text moves the starts of its lines. -/
theorem startsAfter_add (offset size : Nat) (cs : List Char) :
    startsAfter (offset + size) cs = (startsAfter offset cs).map (· + size) := by
  induction cs generalizing offset with
  | nil => rfl
  | cons c cs ih =>
    rw [startsAfter, startsAfter, Nat.add_right_comm, ih]
    split <;> rfl

/-- Behind a front without line feeds, lines are those of the rest, found as many bytes earlier as
the front has. -/
theorem line_of_front {text rest : String} {front : List Char}
    (h : text.toList = front ++ rest.toList) (hfront : '\n' ∉ front) (offset : Nat) :
    (ofText text).line offset = (ofText rest).line (offset - byteSize front) := by
  have hnone : startsAfter 0 front = [] := startsAfter_eq_nil hfront 0
  have hmoved : (startsAfter 0 rest.toList).countP (fun start => start + byteSize front ≤ offset) =
      (startsAfter 0 rest.toList).countP (· ≤ offset - byteSize front) := by
    refine List.countP_congr fun start hstart => ?_
    have := bounds_of_mem_startsAfter hstart
    simp only [decide_eq_true_eq]
    omega
  rw [line, line, ofText, ofText, h, startsAfter_append, hnone, startsAfter_add, List.nil_append,
    List.countP_cons, List.countP_cons, List.countP_map]
  simpa [Function.comp_def] using hmoved

end XmlCompare.LineTable
