import XmlCompare.Proofs.Document.Mark
import XmlCompare.Proofs.Line.Count
import XmlCompare.Proofs.Report.Blocks
import XmlCompare.Proofs.Report.Layout
import XmlCompare.Proofs.Report.Outcome

/-!
# Findings can be fixed

An element ends on the line of one of its own bytes, so on a line of its text; a byte order mark
only makes the text longer. A finding is on the lines of an element of the control text. So these
lines can be replaced and removed there, and where the control text is shown in blocks, a finding is
shown with them.
-/

set_option autoImplicit false

namespace XmlCompare

open Markup.Token (Stands)
open Text (byteSize)

variable {text : String} {d : Document}

/-- Without a byte order mark in front a text is not longer. -/
theorem Markup.Token.byteSize_dropByteOrderMark_le (cs : List Char) :
    byteSize (dropByteOrderMark cs) ≤ byteSize cs := by
  cases cs with
  | nil => exact Nat.le_refl _
  | cons c rest =>
    rw [dropByteOrderMark]
    split
    · exact Nat.le_add_left _ _
    · exact Nat.le_refl _

namespace Document

/-- The offset to which an element reaches is that of a byte of the text. -/
theorem lt_byteSize_of_stands {index first last : Nat} {name : List Char} (h : parse text = .ok d)
    (hstands : Stands (Markup.Token.readAll text).items index name first last) :
    last < byteSize text.toList := by
  obtain ⟨events, hevents, -⟩ := parse_eq_ok_iff.mp h
  obtain ⟨hfault, -⟩ := Event.toExcept_ofTokens_eq_ok_iff.mp hevents
  obtain ⟨pieces, hchain, hjoin, hitems⟩ := Markup.Token.exists_pieces hfault
  rw [hitems] at hstands
  obtain ⟨before, behind, hwritten, -, rfl⟩ := Markup.Token.exists_written hchain hstands
  obtain ⟨-, rest, c, -, hsplit, -⟩ := hwritten.split
  have hread := Markup.Token.byteSize_dropByteOrderMark_le text.toList
  rw [← hjoin, hsplit, Text.byteSize_append, byteSize] at hread
  have hc := c.utf8Size_pos
  omega

/-- An element ends on a line of its text. -/
theorem last_le_length {x : Element} (h : parse text = .ok d) (hx : x ∈ d.elements) :
    x.lines.last ≤ (Line.linesOf text).length := by
  obtain ⟨index, hx⟩ := List.mem_iff_getElem?.mp hx
  obtain ⟨name, first, last, hstands⟩ := exists_stands h hx
  obtain ⟨hle, -⟩ := bounds_of_stands h hstands
  rw [(lines_of_stands h hx hstands).2, LineTable.between,
    (LineRange.between_of_le (LineTable.one_le_line_ofText _ _) (LineTable.line_mono _ hle)).2]
  exact LineTable.line_le_length (lt_byteSize_of_stands h hstands)

end Document

/-- A finding made with the index of a document is on the lines of one of its elements. -/
theorem Finding.exists_covered {index : PositionIndex} {differences : List Difference} {f : Finding}
    (hperm : index.entries.entries.Perm (d.root.all.map Element.entry))
    (hf : f ∈ project index differences) : ∃ x ∈ d.elements, f.Covers x := by
  obtain ⟨difference, -, hfinding⟩ := exists_of_mem_project hf
  obtain ⟨-, lines, hlines, rfl⟩ := ofDifference?_eq_some_iff.mp hfinding
  obtain ⟨x, hx, -, rfl⟩ := PositionIndex.exists_of_get? hperm hlines
  exact ⟨x, Document.elements_eq d ▸ hx, rfl, rfl⟩

/-- The findings of a snapshot are made with its index, and there are some. -/
theorem Snapshot.exists_project {s : Snapshot} {selectors : List Selector} {test : String}
    {findings : List Finding} (h : s.verify selectors test = .invalid findings) :
    findings ≠ [] ∧ ∃ differences, findings = Finding.project s.index differences := by
  unfold verify at h
  split at h
  · cases h
  · cases h
  · rename_i differences _
    split at h
    · cases h
    · rename_i f fs hfound
      obtain rfl := Verdict.invalid.inj h
      exact ⟨List.cons_ne_nil f fs, differences, hfound.symm⟩

/-- A verdict with findings is that of a snapshot of the control text. -/
theorem exists_snapshot_of_invalid {selectors : List Selector} {control test : String}
    {findings : List Finding} (h : verify control test = .invalid findings ∨
      verifyWith selectors control test = .ok (.invalid findings)) :
    ∃ s selectors, Snapshot.ofText control = .ok s ∧
      s.verify selectors test = .invalid findings := by
  rcases h with h | h
  · unfold verify at h
    split at h
    · cases h
    · split at h
      · cases h
      · rename_i s hs
        exact ⟨s, Selector.standard, hs, h⟩
  · unfold verifyWith at h
    cases hs : Snapshot.ofText control with
    | error error =>
      rw [hs] at h
      cases h
    | ok s =>
      rw [hs] at h
      exact ⟨s, selectors, rfl, Except.ok.inj h⟩

/-- For all texts and selectors, if the verdict is invalid, every finding is on lines of the control
text, which can be replaced by any text and removed. Among the blocks in which the control text is
shown at least one carries a finding. -/
theorem findings_can_be_fixed (selectors : List Selector) (control test : String)
    (findings : List Finding) (h : verify control test = .invalid findings ∨
      verifyWith selectors control test = .ok (.invalid findings)) :
    (∀ f ∈ findings, 1 ≤ f.firstLine ∧ f.firstLine ≤ f.lastLine ∧
      f.lastLine ≤ (Line.linesOf control).length ∧
      (∀ replacement, ∃ result,
        Line.replaceLines control f.firstLine f.lastLine replacement = .ok result) ∧
      ∃ result, Line.removeLines control f.firstLine f.lastLine = .ok result) ∧
    ∃ b ∈ Block.group (Line.linesOf control).length findings,
      ∃ f ∈ findings, b.finding = some f := by
  obtain ⟨s, selectors, hsnapshot, hverify⟩ := exists_snapshot_of_invalid h
  obtain ⟨hbuild, -⟩ := Snapshot.ofText_eq_ok_iff.mp hsnapshot
  obtain ⟨events, hevents, -⟩ := PositionIndex.build_eq_ok_iff.mp hbuild
  obtain ⟨c, hparse, -⟩ := Document.parse_of_events hevents
  obtain ⟨-, -, index, hindex, hperm⟩ := Document.index_of_parse hparse
  obtain rfl : index = s.index := Except.ok.inj (hindex.symm.trans hbuild)
  obtain ⟨hsome, differences, rfl⟩ := Snapshot.exists_project hverify
  have hlines : ∀ f ∈ Finding.project s.index differences, 1 ≤ f.firstLine ∧
      f.firstLine ≤ f.lastLine ∧ f.lastLine ≤ (Line.linesOf control).length := by
    intro f hf
    obtain ⟨x, hx, hfirst, hlast⟩ := Finding.exists_covered hperm hf
    rw [hfirst, hlast]
    exact ⟨x.lines.one_le_first, x.lines.first_le_last, Document.last_le_length hparse hx⟩
  constructor
  · intro f hf
    obtain ⟨hone, hle, hlength⟩ := hlines f hf
    have hreplace := fun replacement =>
      (Line.exists_replaceLines_iff replacement).mpr ⟨hone, hle, hlength⟩
    exact ⟨hone, hle, hlength, hreplace, hreplace ""⟩
  · obtain ⟨f, hf⟩ := List.exists_mem_of_ne_nil _ hsome
    obtain ⟨hone, hle, hlength⟩ := hlines f hf
    have hcovers : f.lines.containsLine f.firstLine = true := by
      obtain ⟨hfirst, hlast⟩ := LineRange.between_of_le hone hle
      rw [LineRange.containsLine_iff, Finding.lines, hfirst, hlast]
      exact ⟨Nat.le_refl _, hle⟩
    obtain ⟨b, hb, -, -, hfinding⟩ :=
      Block.exists_block_of_mem hf hcovers hone (Nat.le_trans hle hlength)
    exact ⟨b, hb, hfinding⟩

/-- A list whose only item is a word. -/
def singleWord (word : String) (last : Nat) : Element :=
  .mk ⟨"r", .bare "r", ⟨[⟨"r", 1⟩]⟩, .between 1 last, .empty, .empty⟩
    [.element (.mk ⟨"i", .bare "i", ⟨[⟨"r", 1⟩, ⟨"i", 1⟩]⟩, .between 1 last, .empty, .empty⟩
      [.text word])]

/-- What is found of another word on the line behind a byte order mark. -/
def otherWord : Finding :=
  ⟨1, 2, "2", "Control: 1 => Test: 2 | Context: Class: r, Property: i"⟩

/-- The finding goes to the last line of a text that does not end with a line feed. -/
theorem otherWord_can_be_fixed :
    verify "\ufeff<r>\n<i>1</i></r>" "<r><i>2</i></r>" = .invalid [otherWord] ∧
    (∀ f ∈ [otherWord], 1 ≤ f.firstLine ∧ f.firstLine ≤ f.lastLine ∧
      f.lastLine ≤ (Line.linesOf "\ufeff<r>\n<i>1</i></r>").length ∧
      (∀ replacement, ∃ result, Line.replaceLines "\ufeff<r>\n<i>1</i></r>" f.firstLine f.lastLine
        replacement = .ok result) ∧
      ∃ result, Line.removeLines "\ufeff<r>\n<i>1</i></r>" f.firstLine f.lastLine = .ok result) ∧
    ∃ b ∈ Block.group (Line.linesOf "\ufeff<r>\n<i>1</i></r>").length [otherWord],
      ∃ f ∈ [otherWord], b.finding = some f := by
  have hcontrol : Document.parse "\ufeff<r>\n<i>1</i></r>" = .ok ⟨[], singleWord "1" 2, []⟩ := by
    decide
  have htest : Document.parse "<r><i>2</i></r>" = .ok ⟨[], singleWord "2" 1, []⟩ := by
    decide
  have hbuild : PositionIndex.build "\ufeff<r>\n<i>1</i></r>" =
      .ok ⟨.ofList [(⟨[⟨"r", 1⟩, ⟨"i", 1⟩]⟩, .between 1 2), (⟨[⟨"r", 1⟩]⟩, .between 1 2)]⟩ := by
        decide
  have hinvalid : verify "\ufeff<r>\n<i>1</i></r>" "<r><i>2</i></r>" = .invalid [otherWord] := by
    rw [verify_of_build hcontrol htest hbuild]
    rfl
  exact ⟨hinvalid, findings_can_be_fixed Selector.standard _ _ _ (.inl hinvalid)⟩

end XmlCompare
