import XmlCompare.Line.Edit
import XmlCompare.Line.Range
import XmlCompare.Text.Blank
import XmlCompare.Text.Cut

/-!
# Cutting lines out

A text is what stands before some lines, what stands on them, and what stands behind them. Removing
lines that are not the last ones leaves the first part and the last part, and the first part ends
with a line feed if there is any.
-/

set_option autoImplicit false

namespace XmlCompare

namespace Text

/-- Texts that begin in one text and have as many bytes are one. -/
theorem eq_of_byteSize_eq {a b c d : List Char} (h : a ++ b = c ++ d)
    (hsize : byteSize a = byteSize c) : a = c := by
  have hempty : ∀ m : List Char, byteSize m = 0 → m = [] := by
    intro m hm
    cases m with
    | nil => rfl
    | cons first m =>
      have := Char.utf8Size_pos first
      rw [byteSize] at hm
      omega
  rcases List.append_eq_append_iff.mp h with ⟨m, rfl, -⟩ | ⟨m, rfl, -⟩
  · rw [byteSize_append] at hsize
    rw [hempty m (by omega), List.append_nil]
  · rw [byteSize_append] at hsize
    rw [hempty m (by omega), List.append_nil]

end Text

namespace Line

/-- What stands before some lines of a text. -/
def textBefore (cs : List Char) (lines : LineRange) : List Char :=
  ((fullLines cs).take (lines.first - 1)).flatten

/-- What stands on some lines of a text. -/
def textOn (cs : List Char) (lines : LineRange) : List Char :=
  (((fullLines cs).take lines.last).drop (lines.first - 1)).flatten

/-- What stands behind some lines of a text. -/
def textBehind (cs : List Char) (lines : LineRange) : List Char :=
  ((fullLines cs).drop lines.last).flatten

/-- What goes from byte `start` to byte `stop` of a text stands on some lines, on which there is
nothing else but what separates markup. -/
def StandsAlone (cs : List Char) (lines : LineRange) (start stop : Nat) : Prop :=
  ∃ lead source trail, textOn cs lines = lead ++ source ++ trail ∧
    (∀ c ∈ lead, Text.isMarkupBlank c = true) ∧ (∀ c ∈ trail, Text.isMarkupBlank c = true) ∧
    start = Text.byteSize (textBefore cs lines ++ lead) ∧ stop = start + Text.byteSize source

variable {cs : List Char} {lines : LineRange}

/-- What stands before the end of some lines. -/
theorem textBefore_append_textOn (cs : List Char) (lines : LineRange) :
    textBefore cs lines ++ textOn cs lines = ((fullLines cs).take lines.last).flatten := by
  have hle : lines.first - 1 ≤ lines.last := by
    have := lines.first_le_last
    omega
  have hsplit := List.take_append_drop (lines.first - 1) ((fullLines cs).take lines.last)
  rw [List.take_take, Nat.min_eq_left hle] at hsplit
  rw [textBefore, textOn, ← List.flatten_append, hsplit]

/-- The text before some lines, that on them and that behind them are the text. -/
theorem textBefore_append (cs : List Char) (lines : LineRange) :
    textBefore cs lines ++ textOn cs lines ++ textBehind cs lines = cs := by
  rw [textBefore_append_textOn, textBehind, ← List.flatten_append, List.take_append_drop,
    flatten_fullLines]

/-- A line behind which another one comes ends with a line feed. -/
theorem getLast?_of_fullLines {before after : List (List Char)} {line : List Char}
    (h : fullLines cs = before ++ line :: after) (hafter : after ≠ []) :
    line.getLast? = some '\n' := by
  induction cs generalizing before line with
  | nil =>
    rw [fullLines] at h
    cases before <;> cases h
  | cons c cs ih =>
    rw [fullLines] at h
    split at h
    · cases before with
      | nil =>
        obtain ⟨rfl, -⟩ := List.cons.inj h
        rfl
      | cons first before => exact ih (List.cons.inj h).2
    · split at h
      · cases before with
        | nil => exact absurd (List.cons.inj h).2.symm hafter
        | cons first before =>
          have hnil := (List.cons.inj h).2
          simp at hnil
      · rename_i next rest hlines
        cases before with
        | nil =>
          obtain ⟨rfl, rfl⟩ := List.cons.inj h
          rw [List.getLast?_cons, @ih [] next hlines]
          rfl
        | cons first before =>
          refine @ih (next :: before) line ?_
          rw [hlines, (List.cons.inj h).2]
          rfl

/-- What stands before a line ends with a line feed. -/
theorem getLast?_take_fullLines {count : Nat} (h : count < (fullLines cs).length)
    (hne : ((fullLines cs).take count).flatten ≠ []) :
    ((fullLines cs).take count).flatten.getLast? = some '\n' := by
  have hsplit := List.take_append_drop count (fullLines cs)
  rcases List.eq_nil_or_concat ((fullLines cs).take count) with hnil | ⟨before, line, hline⟩
  · rw [hnil] at hne
    exact absurd rfl hne
  · rw [List.concat_eq_append] at hline
    rw [hline, List.append_assoc] at hsplit
    have hlast := getLast?_of_fullLines hsplit.symm (by simpa using h)
    rw [hline, List.flatten_append, List.flatten_singleton, List.getLast?_append, hlast]
    rfl

/-- The text before some lines ends with a line feed. -/
theorem getLast?_textBefore (h : lines.last < (fullLines cs).length)
    (hne : textBefore cs lines ≠ []) : (textBefore cs lines).getLast? = some '\n' := by
  have hle := lines.first_le_last
  exact getLast?_take_fullLines (by omega) hne

/-- The text up to some lines that are not the last ends with a line feed. -/
theorem getLast?_textOn (h : lines.last < (fullLines cs).length)
    (hne : textBefore cs lines ++ textOn cs lines ≠ []) :
    (textBefore cs lines ++ textOn cs lines).getLast? = some '\n' := by
  rw [textBefore_append_textOn] at hne ⊢
  exact getLast?_take_fullLines h hne

/-- Lines with text behind them are not the last. -/
theorem last_lt_length (h : textBehind cs lines ≠ []) : lines.last < (fullLines cs).length := by
  rw [← Nat.not_le]
  intro hle
  rw [textBehind, List.drop_eq_nil_of_le hle] at h
  exact h rfl

/-- Lines that are not the last ones can be removed. -/
theorem removeLines_eq_ok {text : String} (h : textBehind text.toList lines ≠ []) :
    removeLines text lines.first lines.last =
      .ok (String.ofList (textBefore text.toList lines ++ textBehind text.toList lines)) := by
  have hlast := last_lt_length h
  have hfirst := lines.one_le_first
  have hle := lines.first_le_last
  have hrange : ¬ (lines.first = 0 ∨ lines.first > lines.last ∨
      lines.last > (fullLines text.toList).length) := by omega
  have hreplaced : replaceChars text.toList lines.first lines.last [] =
      .ok (textBefore text.toList lines ++ textBehind text.toList lines) := by
    unfold replaceChars
    simp only [if_neg hrange, patch, hlast, decide_true, Bool.true_or, Bool.not_true,
      Bool.false_and]
    rfl
  show (replaceChars text.toList lines.first lines.last []).map String.ofList = _
  rw [hreplaced]
  rfl

/-- Parts of a text of which one stands alone on some lines. -/
theorem StandsAlone.exists_parts {start stop : Nat} {first middle last : List Char}
    (h : StandsAlone cs lines start stop) (hparts : first ++ middle ++ last = cs)
    (hstart : Text.byteSize first = start) (hstop : start + Text.byteSize middle = stop) :
    ∃ lead trail, (∀ c ∈ lead, Text.isMarkupBlank c = true) ∧
      (∀ c ∈ trail, Text.isMarkupBlank c = true) ∧ first = textBefore cs lines ++ lead ∧
      textOn cs lines = lead ++ middle ++ trail ∧ last = trail ++ textBehind cs lines := by
  obtain ⟨lead, source, trail, hon, hlead, htrail, hstart', hstop'⟩ := h
  have hcs := hparts.trans (textBefore_append cs lines).symm
  rw [hon, List.append_assoc] at hcs
  have hfirst : first = textBefore cs lines ++ lead := by
    apply Text.eq_of_byteSize_eq (b := middle ++ last) (d := source ++ trail ++ textBehind cs lines)
    · simpa using hcs
    · rw [hstart, hstart']
  have hmore : middle ++ last = source ++ (trail ++ textBehind cs lines) := by
    rw [hfirst] at hcs
    simpa using hcs
  have hmiddle : middle = source := Text.eq_of_byteSize_eq hmore (by omega)
  rw [hmiddle] at hmore ⊢
  exact ⟨lead, trail, hlead, htrail, hfirst, hon, List.append_cancel_left hmore⟩

end Line

end XmlCompare
