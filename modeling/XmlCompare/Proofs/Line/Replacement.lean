import Mathlib.Data.List.ModifyLast
import XmlCompare.Proofs.Line.Count
import XmlCompare.Proofs.Line.Excision

/-!
# Lines that are replaced and removed

A text whose last line is ended keeps its lines when another text follows it, and so does that one.
What stands before the lines that an edit addresses is such a text. So is what takes their place, if
there is anything behind it or if the last line is to be ended; so a replacement touches no other
line.

Lines that are removed leave the others as they are if there are lines behind them, or if the text
ends with a line feed. Else the line feed before them goes too. What it ended is then the last line,
without a line feed: a blank line is no line any more, and a carriage return at the end is seen.
-/

set_option autoImplicit false

namespace XmlCompare.Line

variable {cs replacement : List Char} {count first last : Nat}

/-- The last line of a text is ended, if there is one. -/
def Ended (cs : List Char) : Prop := ∀ c ∈ cs.getLast?, c = '\n'

/-- What stands behind a line of an ended text is ended. -/
theorem Ended.behind {line rest : List Char} (h : Ended (line ++ '\n' :: rest)) : Ended rest := by
  intro c hc
  refine h c ?_
  rw [List.getLast?_append, List.getLast?_cons, Option.mem_def.mp hc]
  rfl

/-- An ended text without line feed is empty. -/
theorem Ended.eq_nil {line : List Char} (h : Ended line) (hline : '\n' ∉ line) : line = [] := by
  rw [← List.getLast?_eq_none_iff, Option.eq_none_iff_forall_not_mem]
  intro c hc
  obtain rfl := h c hc
  exact hline (List.mem_of_getLast? hc)

/-- A text that ends with a line feed is ended. -/
theorem ended_of_endsLine (h : endsLine cs = true) : Ended cs := by
  intro c hc
  rw [endsLine, decide_eq_true_eq] at h
  rw [Option.mem_def, h] at hc
  exact (Option.some.inj hc).symm

/-- A text with a line feed put behind it ends with one. -/
theorem endsLine_concat (cs : List Char) : endsLine (cs ++ ['\n']) = true := by
  simp [endsLine]

/-- Whether a text ends with a line feed depends on its last part. -/
theorem endsLine_append {more : List Char} (h : more ≠ []) (cs : List Char) :
    endsLine (cs ++ more) = endsLine more := by
  rw [endsLine, endsLine, List.getLast?_append, List.getLast?_eq_some_getLast h]
  rfl

/-- A text whose last line is ended keeps its lines in front of another one. -/
theorem fullLines_append (h : Ended cs) (more : List Char) :
    fullLines (cs ++ more) = fullLines cs ++ fullLines more := by
  induction cs using line_induction with
  | last line hline =>
    obtain rfl := h.eq_nil hline
    rfl
  | ended line rest hline ih =>
    rw [List.append_assoc, List.cons_append, fullLines_ended hline, fullLines_ended hline,
      ih h.behind, List.cons_append]

/-- A text that is not empty has a line. -/
theorem fullLines_ne_nil (h : cs ≠ []) : fullLines cs ≠ [] := by
  intro hnil
  have hflat := flatten_fullLines cs
  rw [hnil] at hflat
  exact h hflat.symm

/-- The first lines of a text are the lines of what they make up. -/
theorem fullLines_take (cs : List Char) (count : Nat) :
    fullLines ((fullLines cs).take count).flatten = (fullLines cs).take count := by
  induction cs using line_induction generalizing count with
  | last line hline =>
    rw [fullLines_last hline]
    split
    · rw [List.take_nil]
      rfl
    · rename_i hne
      cases count with
      | zero => rfl
      | succ count =>
        rw [List.take_succ_cons, List.take_nil, List.flatten_singleton, fullLines_last hline,
          if_neg hne]
  | ended line rest hline ih =>
    rw [fullLines_ended hline]
    cases count with
    | zero => rfl
    | succ count =>
      rw [List.take_succ_cons, List.flatten_cons, List.append_assoc, List.singleton_append,
        fullLines_ended hline, ih]

/-- The last lines of a text are the lines of what they make up. -/
theorem fullLines_drop (cs : List Char) (count : Nat) :
    fullLines ((fullLines cs).drop count).flatten = (fullLines cs).drop count := by
  induction cs using line_induction generalizing count with
  | last line hline =>
    rw [fullLines_last hline]
    split
    · rw [List.drop_nil]
      rfl
    · rename_i hne
      cases count with
      | zero =>
        rw [List.drop_zero, List.flatten_singleton, fullLines_last hline, if_neg hne]
      | succ count =>
        rw [List.drop_succ_cons, List.drop_nil]
        rfl
  | ended line rest hline ih =>
    rw [fullLines_ended hline]
    cases count with
    | zero =>
      rw [List.drop_zero, ← fullLines_ended hline, flatten_fullLines]
    | succ count => rw [List.drop_succ_cons, ih]

/-- Lines that are not the last ones of a text are ended. -/
theorem ended_take (h : count < (fullLines cs).length) :
    Ended ((fullLines cs).take count).flatten := by
  by_cases hnil : ((fullLines cs).take count).flatten = []
  · rw [hnil]
    intro c hc
    cases hc
  · refine ended_of_endsLine ?_
    rw [endsLine, getLast?_take_fullLines h hnil]
    rfl

/-- A line feed behind a text whose last line is not ended ends that line. -/
theorem fullLines_concat (hne : cs ≠ []) (h : endsLine cs = false) :
    fullLines (cs ++ ['\n']) = (fullLines cs).modifyLast (· ++ ['\n']) := by
  induction cs using line_induction with
  | last line hline =>
    rw [fullLines_ended hline, fullLines_last hline, if_neg hne]
    exact (List.modifyLast_concat (· ++ ['\n']) line []).symm
  | ended line rest hline ih =>
    have hrest : rest ≠ [] := by
      rintro rfl
      rw [endsLine_concat] at h
      cases h
    have hends : endsLine rest = false := by
      rwa [List.append_cons, endsLine_append hrest] at h
    rw [List.append_assoc, List.cons_append, fullLines_ended hline, fullLines_ended hline,
      ih hrest hends]
    exact (List.modifyLast_append_of_right_ne_nil _ [line ++ ['\n']] _
      (fullLines_ne_nil hrest)).symm

/-! ## Edits -/

/-- An edit fails exactly if it does not address lines of the text. -/
theorem replaceLines_eq_error_iff {text replacement : String} :
    replaceLines text first last replacement =
        .error ⟨first, last, (fullLines text.toList).length⟩ ↔
      first = 0 ∨ first > last ∨ last > (fullLines text.toList).length := by
  unfold replaceLines replaceChars
  by_cases hrange : first = 0 ∨ first > last ∨ last > (fullLines text.toList).length
  · simp only [hrange, iff_true]
    rfl
  · simp only [hrange, iff_false]
    rintro ⟨⟩

/-- An edit that addresses lines of the text puts something in their place. -/
theorem replaceLines_eq_ok {text replacement : String} (hfirst : 1 ≤ first) (hle : first ≤ last)
    (hlast : last ≤ (fullLines text.toList).length) :
    replaceLines text first last replacement = .ok (String.ofList
      (patch ((fullLines text.toList).take (first - 1)).flatten replacement.toList
        (last < (fullLines text.toList).length || endsLine text.toList) ++
          ((fullLines text.toList).drop last).flatten)) := by
  have hrange : ¬ (first = 0 ∨ first > last ∨ last > (fullLines text.toList).length) := by omega
  unfold replaceLines replaceChars
  simp only [if_neg hrange]
  rfl

/-- Nothing stands behind lines that are not closed. -/
theorem flatten_drop_of_open
    (h : (decide (last < (fullLines cs).length) || endsLine cs) = false) :
    ((fullLines cs).drop last).flatten = [] := by
  have hend : (fullLines cs).length ≤ last := by
    simpa using (Bool.or_eq_false_iff.mp h).1
  rw [List.drop_eq_nil_of_le hend]
  rfl

/-- Where a replacement that is not empty takes the place of some lines, the lines before them and
behind them stay. -/
theorem fullLines_patch {before behind : List Char} {closed : Bool} (hbefore : Ended before)
    (hne : replacement ≠ []) (hclosed : closed = false → behind = []) :
    fullLines (patch before replacement closed ++ behind) = fullLines before ++
      (if closed && !endsLine replacement then (fullLines replacement).modifyLast (· ++ ['\n'])
        else fullLines replacement) ++ fullLines behind := by
  rw [patch, if_neg (by simpa using hne)]
  split
  · rename_i hadd
    obtain ⟨-, hends⟩ := Bool.and_eq_true_iff.mp hadd
    rw [List.append_assoc before, List.append_assoc before, fullLines_append hbefore,
      fullLines_append (ended_of_endsLine (endsLine_concat replacement)),
      fullLines_concat hne (by simpa using hends), List.append_assoc]
  · rename_i hkeep
    rw [List.append_assoc before, fullLines_append hbefore, List.append_assoc]
    congr 1
    cases closed with
    | false => rw [hclosed rfl, List.append_nil, fullLines, List.append_nil]
    | true => exact fullLines_append (ended_of_endsLine (by simpa using hkeep)) behind

/-- The text on some lines has these lines. -/
theorem fullLines_textOn (cs : List Char) (lines : LineRange) :
    fullLines (textOn cs lines) = ((fullLines cs).take lines.last).drop (lines.first - 1) := by
  have hdrop := fullLines_drop ((fullLines cs).take lines.last).flatten (lines.first - 1)
  rwa [fullLines_take] at hdrop

/-- On lines that a text has there is text. -/
theorem textOn_ne_nil {lines : LineRange} (hlast : lines.last ≤ (fullLines cs).length) :
    textOn cs lines ≠ [] := by
  intro hnil
  have hlength := congrArg List.length (fullLines_textOn cs lines)
  rw [hnil, fullLines, List.length_nil, List.length_drop, List.length_take] at hlength
  have hone := lines.one_le_first
  have hle := lines.first_le_last
  omega

/-- Some lines of a text are ended if there are lines behind them or the text is ended. -/
theorem endsLine_textOn {lines : LineRange} (hlast : lines.last ≤ (fullLines cs).length)
    (hclosed : (lines.last < (fullLines cs).length || endsLine cs) = true) :
    endsLine (textOn cs lines) = true := by
  have hon := textOn_ne_nil hlast
  rw [← endsLine_append hon (textBefore cs lines), textBefore_append_textOn]
  rcases Nat.lt_or_eq_of_le hlast with hlt | heq
  · have hne : ((fullLines cs).take lines.last).flatten ≠ [] := by
      rw [← textBefore_append_textOn]
      exact List.append_ne_nil_of_right_ne_nil _ hon
    rw [endsLine, getLast?_take_fullLines hlt hne]
    rfl
  · rw [heq, List.take_length, flatten_fullLines]
    simpa [heq] using hclosed

/-- Lines that are replaced by what stands on them are as they were. -/
theorem patch_textOn (cs : List Char) (lines : LineRange)
    (hlast : lines.last ≤ (fullLines cs).length) :
    patch (textBefore cs lines) (textOn cs lines)
      (lines.last < (fullLines cs).length || endsLine cs) ++ textBehind cs lines = cs := by
  have hpatch : patch (textBefore cs lines) (textOn cs lines)
      (lines.last < (fullLines cs).length || endsLine cs) =
        textBefore cs lines ++ textOn cs lines := by
    rw [patch, if_neg (by simpa using textOn_ne_nil hlast), if_neg]
    intro hadd
    obtain ⟨hclosed, hnot⟩ := Bool.and_eq_true_iff.mp hadd
    rw [endsLine_textOn hlast hclosed] at hnot
    cases hnot
  rw [hpatch, textBefore_append]

/-- For all texts, all numbers of lines and all replacements that are not empty: an edit fails
exactly if the lines are not lines of the text. Else the lines of the result are those before the
edited ones as they were, those of the replacement, and those behind as they were; the last line of
the replacement is ended with a line feed if it has none, unless the edit goes to the end of a text
that has none. A replacement by what stands there changes nothing. -/
theorem fullLines_replaceLines (text replacement : String) (first last : Nat)
    (hreplacement : replacement ≠ "") :
    (replaceLines text first last replacement =
        .error ⟨first, last, (fullLines text.toList).length⟩ ↔
      first = 0 ∨ first > last ∨ last > (fullLines text.toList).length) ∧
    (1 ≤ first → first ≤ last → last ≤ (fullLines text.toList).length →
      (∃ result, replaceLines text first last replacement = .ok result ∧
        fullLines result.toList = (fullLines text.toList).take (first - 1) ++
          (if endsLine replacement.toList = true ∨
              last = (fullLines text.toList).length ∧ endsLine text.toList = false then
            fullLines replacement.toList
          else (fullLines replacement.toList).modifyLast (· ++ ['\n'])) ++
          (fullLines text.toList).drop last) ∧
      replaceLines text first last (String.ofList
        (((fullLines text.toList).take last).drop (first - 1)).flatten) = .ok text) := by
  refine ⟨replaceLines_eq_error_iff, fun hfirst hle hlast => ⟨?_, ?_⟩⟩
  · refine ⟨_, replaceLines_eq_ok hfirst hle hlast, ?_⟩
    have hne : replacement.toList ≠ [] := fun hnil =>
      hreplacement (String.toList_inj.mp hnil)
    rw [String.toList_ofList, fullLines_patch (ended_take (by omega)) hne flatten_drop_of_open,
      fullLines_take, fullLines_drop]
    congr 2
    rw [← ite_not]
    refine if_congr ?_ rfl rfl
    have hend : last = (fullLines text.toList).length ↔ ¬ last < (fullLines text.toList).length := by
      omega
    cases endsLine replacement.toList <;> cases endsLine text.toList <;> simp [hend]
  · rw [replaceLines_eq_ok hfirst hle hlast, String.toList_ofList]
    have hsame := patch_textOn text.toList ⟨first, last, hfirst, hle⟩ hlast
    unfold textBefore textOn textBehind at hsame
    rw [hsame, String.ofList_toList]

/-- The last lines of a text without a final line feed are replaced by two others, and by what
stands there. -/
theorem fullLines_replaceLines_of_open_text :
    "x\ny" ≠ "" ∧ 1 ≤ 2 ∧ 2 ≤ 3 ∧ 3 ≤ (fullLines "a\r\n\nb".toList).length ∧
    (∃ result, replaceLines "a\r\n\nb" 2 3 "x\ny" = .ok result ∧
      fullLines result.toList = [['a', '\r', '\n'], ['x', '\n'], ['y']]) ∧
    replaceLines "a\r\n\nb" 2 3 "\nb" = .ok "a\r\n\nb" := by
  have hne : "x\ny" ≠ "" := by decide
  have hlast : 3 ≤ (fullLines "a\r\n\nb".toList).length := by decide
  obtain ⟨⟨result, hresult, hlines⟩, hsame⟩ :=
    (fullLines_replaceLines "a\r\n\nb" "x\ny" 2 3 hne).2 (by decide) (by decide) hlast
  refine ⟨hne, by decide, by decide, hlast, ⟨result, hresult, hlines.trans ?_⟩, hsame⟩
  decide

/-! ## Lines that are removed -/

/-- A carriage return at the end of a line is dropped, and nothing else is. -/
theorem dropReturn_concat (front : List Char) (c : Char) :
    dropReturn (front ++ [c]) = if c = '\r' then front else front ++ [c] := by
  rw [dropReturn, List.getLast?_concat, List.dropLast_concat]
  simp only [Option.some.injEq]

/-- A line without the line feed that ends it is seen as before, exactly if something other than a
carriage return stands in front of that. -/
theorem lines_last_iff {line : List Char} (h : '\n' ∉ line) :
    lines line = [dropReturn line] ↔ ∃ front c, c ≠ '\r' ∧ line = front ++ [c] := by
  rw [lines_last h]
  rcases List.eq_nil_or_concat line with rfl | ⟨front, c, rfl⟩
  · rw [if_pos rfl]
    constructor
    · intro hnil
      cases hnil
    · rintro ⟨front, c, -, hnil⟩
      simp at hnil
  · rw [List.concat_eq_append, if_neg (by simp), dropReturn_concat]
    constructor
    · intro hsame
      refine ⟨front, c, ?_, rfl⟩
      rintro rfl
      simp at hsame
    · rintro ⟨front', c', hc', hconcat⟩
      obtain ⟨rfl, hc⟩ := List.append_inj' hconcat rfl
      obtain rfl := List.singleton_inj.mp hc
      rw [if_neg hc']

/-- A text is seen as before without the line feed that ends it, exactly if something other than a
carriage return stands in front of that in the last line. -/
theorem lines_dropLast_iff (h : endsLine cs = true) :
    lines cs.dropLast = lines cs ↔
      ∀ line ∈ (fullLines cs).getLast?, ∃ front c, c ≠ '\r' ∧ line = front ++ [c, '\n'] := by
  induction cs using line_induction with
  | last line hline =>
    obtain rfl := (ended_of_endsLine h).eq_nil hline
    cases h
  | ended line rest hline ih =>
    by_cases hrest : rest = []
    · rw [hrest, List.dropLast_concat, lines_ended hline, fullLines_ended hline]
      refine (lines_last_iff hline).trans ⟨?_, fun hlast => ?_⟩
      · rintro ⟨front, c, hc, rfl⟩ _ ⟨⟩
        exact ⟨front, c, hc, List.append_assoc _ _ _⟩
      · obtain ⟨front, c, hc, hline⟩ := hlast _ rfl
        exact ⟨front, c, hc, List.append_cancel_right (hline.trans (List.append_cons _ _ _))⟩
    · have hends : endsLine rest = true := by
        rwa [List.append_cons, endsLine_append hrest] at h
      have hlines := List.getLast?_eq_some_getLast (fullLines_ne_nil hrest)
      rw [List.dropLast_append_of_ne_nil (List.cons_ne_nil _ _), List.dropLast_cons_of_ne_nil hrest,
        lines_ended hline, lines_ended hline, List.cons_inj_right, ih hends, fullLines_ended hline,
        List.getLast?_cons, hlines]
      rfl

/-- What is left when some lines are removed has the lines before and behind them exactly if the
line feed before them stays or can be spared. -/
theorem lines_patch_nil_iff {closed : Bool} (h : count < (fullLines cs).length) {behind : List Char}
    (hclosed : closed = false → behind = []) :
    lines (patch ((fullLines cs).take count).flatten [] closed ++ behind) =
        lines ((fullLines cs).take count).flatten ++ lines behind ↔
      closed = true ∨ ∀ line ∈ ((fullLines cs).take count).getLast?,
        ∃ front c, c ≠ '\r' ∧ line = front ++ [c, '\n'] := by
  have hended := ended_take h
  have htake := fullLines_take cs count
  generalize ((fullLines cs).take count).flatten = before at hended htake
  rw [← htake]
  cases closed with
  | true =>
    refine iff_of_true ?_ (.inl rfl)
    show lines (before ++ behind) = _
    rw [lines_eq_map, fullLines_append hended, List.map_append, ← lines_eq_map, ← lines_eq_map]
  | false =>
    rw [hclosed rfl, List.append_nil, lines_last List.not_mem_nil, if_pos rfl, List.append_nil]
    simp only [Bool.false_eq_true, false_or]
    cases hends : endsLine before with
    | true =>
      rw [← lines_dropLast_iff hends]
      simp [patch, hends]
    | false =>
      -- Nothing stands before the lines.
      have hnil : before = [] := by
        rw [← List.getLast?_eq_none_iff, Option.eq_none_iff_forall_not_mem]
        intro c hc
        obtain rfl := hended c hc
        rw [endsLine, Option.mem_def.mp hc] at hends
        cases hends
      rw [hnil]
      exact iff_of_true rfl fun line hline => by cases hline

/-- For all texts and all lines of them: these lines can be removed, and the lines of the result are
the others exactly if there are lines behind them, or the text ends with a line feed, or the line in
front of them, if there is one, has something other than a carriage return before its line feed. -/
theorem linesOf_removeLines_iff (text : String) (first last : Nat) (hfirst : 1 ≤ first)
    (hle : first ≤ last) (hlast : last ≤ (linesOf text).length) :
    ∃ result, removeLines text first last = .ok result ∧
      (linesOf result = (linesOf text).take (first - 1) ++ (linesOf text).drop last ↔
        last < (linesOf text).length ∨ endsLine text.toList = true ∨
          ∀ line ∈ ((fullLines text.toList).take (first - 1)).getLast?,
            ∃ front c, c ≠ '\r' ∧ line = front ++ [c, '\n']) := by
  rw [length_linesOf] at hlast ⊢
  refine ⟨_, replaceLines_eq_ok hfirst hle hlast, ?_⟩
  have hbehind : (last < (fullLines text.toList).length || endsLine text.toList) = false →
      ((fullLines text.toList).drop last).flatten = [] := flatten_drop_of_open
  have hothers : (linesOf text).take (first - 1) ++ (linesOf text).drop last =
      (lines ((fullLines text.toList).take (first - 1)).flatten ++
        lines ((fullLines text.toList).drop last).flatten).map String.ofList := by
    rw [linesOf, lines_eq_map, lines_eq_map, lines_eq_map, fullLines_take, fullLines_drop,
      ← List.map_take, ← List.map_take, ← List.map_drop, ← List.map_drop, List.map_append]
  rw [hothers, linesOf, String.toList_ofList,
    (List.map_injective_iff.mpr fun _ _ => String.ofList_inj.mp).eq_iff, String.toList_empty,
    lines_patch_nil_iff (by omega) hbehind, Bool.or_eq_true, decide_eq_true_eq, or_assoc]

/-- Behind a blank line, a last line that is ended is removed and no other. -/
theorem linesOf_removeLines_of_ended_line :
    1 ≤ 3 ∧ 3 ≤ 3 ∧ 3 ≤ (linesOf "a\r\n\nb\n").length ∧
    ∃ result, removeLines "a\r\n\nb\n" 3 3 = .ok result ∧ linesOf result = ["a", ""] := by
  have hlast : 3 ≤ (linesOf "a\r\n\nb\n").length := by decide
  obtain ⟨result, hresult, hlines⟩ :=
    linesOf_removeLines_iff "a\r\n\nb\n" 3 3 (by decide) (Nat.le_refl 3) hlast
  have hends : endsLine "a\r\n\nb\n".toList = true := by decide
  refine ⟨by decide, Nat.le_refl 3, hlast, result, hresult, ?_⟩
  rw [hlines.mpr (.inr (.inl hends))]
  decide

/-- A carriage return in front of the line feed that goes is seen. -/
example : removeLines "a\r\nb" 2 2 = .ok "a\r" := by decide

/-- A blank line goes with the last line behind it, if that is not ended. -/
theorem blank_line_goes_too : ¬ ∀ (text : String) (first last : Nat), 1 ≤ first → first ≤ last →
    last ≤ (linesOf text).length → ∃ result, removeLines text first last = .ok result ∧
      linesOf result = (linesOf text).take (first - 1) ++ (linesOf text).drop last := by
  intro h
  obtain ⟨result, hresult, hlines⟩ :=
    h "a\n\nb" 3 3 (by decide) (Nat.le_refl 3) (by decide)
  have hremoved : removeLines "a\n\nb" 3 3 = .ok "a\n" := by decide
  obtain rfl := Except.ok.inj (hresult.symm.trans hremoved)
  revert hlines
  decide

end XmlCompare.Line
