import Mathlib.Data.List.Count
import XmlCompare.Proofs.Line.Count
import XmlCompare.Report.Block

/-!
# Where a byte stands

A text is numbered in three ways: a line table looks up the line and the column of a byte, an edit
counts the full lines, and a reader counts the lines without what ends them. The numbers agree. The
line of a byte is one more than the line feeds before it. It is the full line of that number, and
there the byte stands as far behind the start as its column says; what the reader sees on the line
of that number is that full line without its end.

No number that is needed for this gets too large or negative, but for one: the column of the largest
offset on the first line.

A table can be looked up because the starts of lines increase: those up to an offset come first, and
the last of these is the start of its line.
-/

set_option autoImplicit false

namespace XmlCompare

namespace Text

variable {cs : List Char}

/-- The bytes of a text in UTF-8. -/
def bytes (cs : List Char) : List UInt8 := (String.ofList cs).toUTF8.data.toList

/-- The bytes of a text are those of its characters. -/
theorem bytes_eq_flatMap (cs : List Char) : bytes cs = cs.flatMap String.utf8EncodeChar := by
  simp [bytes, String.toByteArray_ofList, List.utf8Encode, List.data_toByteArray]

/-- The bytes of two texts follow each other. -/
theorem bytes_append (first second : List Char) :
    bytes (first ++ second) = bytes first ++ bytes second := by
  simp [bytes_eq_flatMap]

/-- The bytes of the first character come first. -/
theorem bytes_cons (c : Char) (cs : List Char) :
    bytes (c :: cs) = String.utf8EncodeChar c ++ bytes cs := by
  simp [bytes_eq_flatMap]

/-- A text has as many bytes as its size says. -/
theorem length_bytes (cs : List Char) : (bytes cs).length = byteSize cs := by
  induction cs with
  | nil => rfl
  | cons c cs ih => rw [bytes_cons, List.length_append, String.length_utf8EncodeChar, ih, byteSize]

/-- A line feed is the only character with its byte. -/
theorem eq_of_feed_mem {c : Char} (h : 10 ∈ String.utf8EncodeChar c) : c = '\n' := by
  have hbyte : ∀ n : Nat, (10 : UInt8) = UInt8.ofNat n → n % 256 = 10 := by
    intro n hn
    simpa using (congrArg UInt8.toNat hn).symm
  rw [String.utf8EncodeChar.eq_1] at h
  split at h
  · have hval := hbyte _ (List.mem_singleton.mp h)
    have hnat : c.val.toNat = 10 := by omega
    apply Char.ext
    apply UInt32.toNat.inj
    exact hnat
  · -- The bytes of all other characters have their highest bit set.
    exfalso
    split at h
    · simp only [List.mem_cons, List.not_mem_nil, or_false] at h
      rcases h with h | h <;> have := hbyte _ h <;> omega
    · split at h
      · simp only [List.mem_cons, List.not_mem_nil, or_false] at h
        rcases h with h | h | h <;> have := hbyte _ h <;> omega
      · simp only [List.mem_cons, List.not_mem_nil, or_false] at h
        rcases h with h | h | h | h <;> have := hbyte _ h <;> omega

end Text

namespace LineTable

open Text (byteSize bytes)

/-- Lines begin behind the bytes that are line feeds. -/
theorem countP_startsAfter (offset distance : Nat) (cs : List Char) :
    (startsAfter offset cs).countP (· ≤ offset + distance) =
      ((bytes cs).take distance).count 10 := by
  induction cs generalizing offset distance with
  | nil => simp [startsAfter, Text.bytes_eq_flatMap]
  | cons c cs ih =>
    have hsize := c.utf8Size_pos
    have hlength := String.length_utf8EncodeChar c
    -- Where the distance ends within the first character, no line has begun.
    have hrest : (startsAfter (offset + c.utf8Size) cs).countP (· ≤ offset + distance) =
        ((bytes cs).take (distance - c.utf8Size)).count 10 := by
      by_cases hle : c.utf8Size ≤ distance
      · rw [← ih]
        congr! 3
        omega
      · rw [Nat.sub_eq_zero_of_le (by omega), List.take_zero, List.count_nil, List.countP_eq_zero]
        intro start hstart
        have := bounds_of_mem_startsAfter hstart
        simp only [decide_eq_true_eq]
        omega
    rw [Text.bytes_cons, List.take_append, List.count_append, hlength, ← hrest, startsAfter]
    by_cases hfeed : c = '\n'
    · subst hfeed
      have hone : '\n'.utf8Size = 1 := rfl
      have hbytes : String.utf8EncodeChar '\n' = [10] := rfl
      rw [if_pos rfl, List.countP_cons, hone, hbytes]
      cases distance with
      | zero => simp
      | succ distance => simp [Nat.add_comm]
    · have hnone : 10 ∉ (String.utf8EncodeChar c).take distance := fun hmem =>
        hfeed (Text.eq_of_feed_mem (List.mem_of_mem_take hmem))
      rw [if_neg hfeed, List.count_eq_zero_of_not_mem hnone, Nat.zero_add]

/-- The line of an offset is one more than the line feeds before it. -/
theorem line_eq_count (text : String) (offset : Nat) :
    (ofText text).line offset = 1 + ((bytes text.toList).take offset).count 10 := by
  have hcount := countP_startsAfter 0 offset text.toList
  rw [Nat.zero_add] at hcount
  rw [line, ofText, List.countP_cons_of_pos (by simp), hcount, Nat.add_comm]

/-- Lines start at increasing offsets. -/
theorem pairwise_startsAfter (offset : Nat) (cs : List Char) :
    (offset :: startsAfter offset cs).Pairwise (· < ·) := by
  refine List.pairwise_cons.mpr ⟨fun start hstart => (bounds_of_mem_startsAfter hstart).1, ?_⟩
  induction cs generalizing offset with
  | nil => exact .nil
  | cons c cs ih =>
    rw [startsAfter]
    split
    · refine List.pairwise_cons.mpr ⟨fun start hstart => ?_, ih _⟩
      exact (bounds_of_mem_startsAfter hstart).1
    · exact ih _

/-- In a list that increases, the numbers up to a bound come first. -/
theorem le_iff_lt_countP {l : List Nat} (h : l.Pairwise (· < ·)) {i n : Nat} (hn : l[i]? = some n)
    (bound : Nat) : n ≤ bound ↔ i < l.countP (· ≤ bound) := by
  induction l generalizing i with
  | nil => simp at hn
  | cons first l ih =>
    obtain ⟨hfirst, hl⟩ := List.pairwise_cons.mp h
    rw [List.countP_cons]
    by_cases hle : first ≤ bound
    · cases i with
      | zero =>
        obtain rfl : first = n := by simpa using hn
        simp [hle]
      | succ i =>
        rw [List.getElem?_cons_succ] at hn
        simp only [ih hl hn, hle, decide_true, if_true]
        omega
    · -- If the first number is too large, so are the others.
      have hnone : l.countP (· ≤ bound) = 0 := by
        rw [List.countP_eq_zero]
        intro m hm
        have := hfirst m hm
        simp only [decide_eq_true_eq]
        omega
      have hlarge : first ≤ n := by
        rcases List.mem_cons.mp (List.mem_of_getElem? hn) with rfl | hmem
        · exact Nat.le_refl _
        · exact Nat.le_of_lt (hfirst n hmem)
      have hlate : ¬ n ≤ bound := by omega
      simp [hnone, hle, hlate]

/-- The lines that begin up to an offset are those up to its own. -/
theorem start_le_iff {text : String} {i start : Nat} (h : (ofText text).starts[i]? = some start)
    (offset : Nat) : start ≤ offset ↔ i < (ofText text).line offset :=
  le_iff_lt_countP (pairwise_startsAfter 0 text.toList) h offset

/-- The line of an offset begins at the offset or before it, and its start is what columns are
counted from. -/
theorem exists_start (text : String) (offset : Nat) : ∃ start,
    (ofText text).starts[(ofText text).line offset - 1]? = some start ∧ start ≤ offset ∧
      (ofText text).location offset = ⟨(ofText text).line offset, offset - start + 1⟩ := by
  have hone := one_le_line_ofText text offset
  have hle : (ofText text).line offset ≤ (ofText text).starts.length := List.countP_le_length
  have hlt : (ofText text).line offset - 1 < (ofText text).starts.length := by omega
  have hstart := List.getElem?_eq_getElem hlt
  refine ⟨_, hstart, ?_, ?_⟩
  · rw [start_le_iff hstart]
    omega
  · rw [location, lineStart, List.getD_eq_getElem?_getD, hstart]
    rfl

/-- An offset has a place in checked arithmetic exactly if its column is a word, and it is the place
that it has without bounds. -/
theorem location?_eq_some_iff {text : String} {offset : Nat} {place : Location} :
    (ofText text).location? offset = some place ↔
      ((ofText text).location offset).column < Text.wordLimit ∧
        place = (ofText text).location offset := by
  obtain ⟨start, hstart, hle, hlocation⟩ := exists_start text offset
  have hindex : Word.sub? ((ofText text).line offset) 1 = some ((ofText text).line offset - 1) :=
    Word.sub?_eq_some_iff.mpr ⟨one_le_line_ofText text offset, rfl⟩
  have hdistance : Word.sub? offset start = some (offset - start) :=
    Word.sub?_eq_some_iff.mpr ⟨hle, rfl⟩
  rw [location?, hlocation]
  simp only [hindex, hstart, hdistance, Option.bind_eq_bind, Option.bind_some,
    Option.bind_eq_some_iff, Word.add?_eq_some_iff]
  constructor
  · rintro ⟨column, ⟨hlt, rfl⟩, hplace⟩
    exact ⟨hlt, (Option.some.inj hplace).symm⟩
  · rintro ⟨hlt, rfl⟩
    exact ⟨_, ⟨hlt, rfl⟩, rfl⟩

/-- Of all words only the largest may have no place as an offset, and it has none exactly if no line
feed stands before it. -/
theorem location?_eq_none_iff {text : String} {offset : Nat} (h : offset < Text.wordLimit) :
    (ofText text).location? offset = none ↔
      offset + 1 = Text.wordLimit ∧ 10 ∉ (bytes text.toList).take offset := by
  obtain ⟨start, hstart, hle, hlocation⟩ := exists_start text offset
  have hline := line_eq_count text offset
  have hlarge : (ofText text).location? offset = none ↔
      Text.wordLimit ≤ ((ofText text).location offset).column := by
    rw [Option.eq_none_iff_forall_ne_some]
    simp only [ne_eq, location?_eq_some_iff, not_and]
    exact ⟨fun hnone => Nat.le_of_not_lt fun hlt => hnone _ hlt rfl,
      fun hge _ hlt => absurd hlt (Nat.not_lt.mpr hge)⟩
  rw [hlarge, hlocation, ← List.count_eq_zero]
  -- The first line begins at zero, and all others behind that.
  constructor
  · intro hge
    simp only at hge
    have hzero : start = 0 := by omega
    have hone : (ofText text).line 0 = 1 := line_eq_count text 0
    have hfirst := (start_le_iff hstart 0).mp (by omega)
    omega
  · rintro ⟨hoffset, hnone⟩
    rw [hnone] at hline
    rw [hline] at hstart
    obtain rfl : 0 = start := Option.some.inj hstart
    simp only
    omega

end LineTable

/-! ## Lines and their starts -/

namespace Line

open Text (byteSize bytes)

/-- The first is what a reader sees of the second, which is a line with what ends it. -/
inductive Seen : List Char → List Char → Prop
  /-- The last line of a text may have no end, and a carriage return there is seen. -/
  | last {line : List Char} : '\n' ∉ line → Seen line line
  | feed {line : List Char} : '\n' ∉ line → line.getLast? ≠ some '\r' → Seen line (line ++ ['\n'])
  | returnFeed {line : List Char} : '\n' ∉ line → Seen line (line ++ ['\r', '\n'])

/-- A reader sees an ended line without its ending. -/
theorem seen_dropReturn {line : List Char} (h : '\n' ∉ line) :
    Seen (dropReturn line) (line ++ ['\n']) := by
  unfold dropReturn
  split
  · rename_i hlast
    obtain ⟨front, rfl⟩ := List.getLast?_eq_some_iff.mp hlast
    have hfront : '\n' ∉ front := fun hmem => h (List.mem_append_left _ hmem)
    simpa using Seen.returnFeed hfront
  · rename_i hlast
    exact .feed h hlast

/-- A reader sees of a line what is visible of it. -/
theorem seen_visible {cs line : List Char} (h : line ∈ fullLines cs) : Seen (visible line) line := by
  induction cs using line_induction with
  | last last hlast =>
    rw [fullLines_last hlast] at h
    split at h
    · cases h
    · obtain rfl := List.mem_singleton.mp h
      rw [visible_last hlast]
      exact .last hlast
  | ended first rest hfirst ih =>
    rw [fullLines_ended hfirst] at h
    rcases List.mem_cons.mp h with rfl | hrest
    · rw [visible_ended]
      exact seen_dropReturn hfirst
    · exact ih hrest

/-- A line begins behind the bytes of the lines before it. -/
theorem getElem?_starts {cs : List Char} {i : Nat} (h : i < (fullLines cs).length) (offset : Nat) :
    (offset :: LineTable.startsAfter offset cs)[i]? =
      some (offset + byteSize ((fullLines cs).take i).flatten) := by
  induction cs using line_induction generalizing i offset with
  | last line hline =>
    have hzero : i = 0 := by
      rw [fullLines_last hline] at h
      split at h
      · exact absurd h (Nat.not_lt_zero i)
      · simpa using h
    simp [hzero, byteSize]
  | ended line rest hline ih =>
    rw [fullLines_ended hline] at h ⊢
    cases i with
    | zero => simp [byteSize]
    | succ i =>
      have hnone : LineTable.startsAfter offset line = [] := LineTable.startsAfter_eq_nil hline offset
      have hone : '\n'.utf8Size = 1 := rfl
      rw [LineTable.startsAfter_append, hnone, List.nil_append, LineTable.startsAfter, if_pos rfl,
        List.getElem?_cons_succ, ih (Nat.lt_of_succ_lt_succ h), hone, List.take_succ_cons,
        List.flatten_cons, Text.byteSize_append, Text.byteSize_append]
      simp only [byteSize, hone, Option.some.injEq]
      omega

/-- A line starts behind all lines before it. -/
theorem start_of_split {text : String} {line : List Char} {before behind : List (List Char)}
    (hsplit : fullLines text.toList = before ++ line :: behind) :
    (LineTable.ofText text).starts[before.length]? = some (byteSize before.flatten) := by
  have hlength : before.length < (fullLines text.toList).length := by simp [hsplit]
  have hstart := getElem?_starts hlength 0
  rwa [hsplit, List.take_left, Nat.zero_add] at hstart

/-- A byte of a text is on the full line of the number that the table gives, as far behind its start
as the column says. -/
theorem exists_line {text : String} {offset : Nat} (h : offset < byteSize text.toList) :
    ∃ before line behind, fullLines text.toList = before ++ line :: behind ∧
      (LineTable.ofText text).line offset = before.length + 1 ∧
      byteSize before.flatten ≤ offset ∧ offset < byteSize before.flatten + byteSize line := by
  have hone := LineTable.one_le_line_ofText text offset
  have hcount := LineTable.line_le_length h
  rw [length_linesOf] at hcount
  obtain ⟨before, line, behind, hsplit, hline⟩ : ∃ before line behind,
      fullLines text.toList = before ++ line :: behind ∧
        (LineTable.ofText text).line offset = before.length + 1 := by
    have hlt : (LineTable.ofText text).line offset - 1 < (fullLines text.toList).length := by omega
    refine ⟨_, _, _, (List.take_append_drop _ _).symm.trans
      (congrArg _ (List.drop_eq_getElem_cons hlt)), ?_⟩
    rw [List.length_take]
    omega
  refine ⟨before, line, behind, hsplit, hline, ?_, ?_⟩
  · rw [LineTable.start_le_iff (start_of_split hsplit), hline]
    omega
  · cases behind with
    | nil =>
      -- On the last line, the text ends behind the byte.
      rw [← flatten_fullLines text.toList, hsplit, List.flatten_append, Text.byteSize_append] at h
      simpa using h
    | cons next behind =>
      -- Else the next line begins behind it.
      have hnext : fullLines text.toList = (before ++ [line]) ++ next :: behind := by simp [hsplit]
      have hiff := LineTable.start_le_iff (start_of_split hnext) offset
      rw [hline, List.length_append, List.length_singleton, List.flatten_append,
        Text.byteSize_append, List.flatten_singleton] at hiff
      omega

/-- That byte is the byte of the line that its column counts. -/
theorem getElem?_bytes {cs line : List Char} {before behind : List (List Char)} {offset : Nat}
    (hsplit : fullLines cs = before ++ line :: behind) (hle : byteSize before.flatten ≤ offset)
    (hlt : offset < byteSize before.flatten + byteSize line) :
    (bytes line)[offset - byteSize before.flatten]? = (bytes cs)[offset]? := by
  have hbytes : bytes cs = bytes before.flatten ++ (bytes line ++ bytes behind.flatten) := by
    rw [← Text.bytes_append, ← Text.bytes_append, ← flatten_fullLines cs, hsplit]
    simp
  rw [hbytes, List.getElem?_append_right (by rwa [Text.length_bytes]), Text.length_bytes,
    List.getElem?_append_left (by rw [Text.length_bytes]; omega)]

/-- What a reader sees on the line with the number of a full line. -/
theorem linesOf_of_split {text : String} {line : List Char} {before behind : List (List Char)}
    (hsplit : fullLines text.toList = before ++ line :: behind) :
    (linesOf text)[before.length]? = some (String.ofList (visible line)) := by
  simp [linesOf, lines_eq_map, hsplit]

/-- A block of one line shows what is visible of that line. -/
theorem block_lines_of_split {text : String} {line : List Char} {before behind : List (List Char)}
    (hsplit : fullLines text.toList = before ++ line :: behind) :
    (Block.mk (before.length + 1) (before.length + 1) none).lines text =
      [String.ofList (visible line)] := by
  simp [Block.lines, linesOf, lines_eq_map, hsplit]

end Line

open Text (byteSize)

/-- One place is before another one: on an earlier line, or in an earlier column of the same
line. -/
def Location.Before (a b : Location) : Prop :=
  a.line < b.line ∨ a.line = b.line ∧ a.column < b.column

/-- Of two offsets the smaller one is at an earlier place. -/
theorem LineTable.location_before (text : String) {offset later : Nat} (h : offset < later) :
    ((ofText text).location offset).Before ((ofText text).location later) := by
  obtain ⟨start, hstart, hle, hlocation⟩ := exists_start text offset
  obtain ⟨start', hstart', hle', hlocation'⟩ := exists_start text later
  rw [hlocation, hlocation', Location.Before]
  rcases Nat.lt_or_eq_of_le (line_mono (ofText text) (Nat.le_of_lt h)) with hlt | heq
  · exact .inl hlt
  · rw [heq, hstart'] at hstart
    obtain rfl := Option.some.inj hstart
    exact .inr ⟨heq, by simp only; omega⟩

/-- The column of a byte is counted from the end of the lines before its own. -/
theorem LineTable.location_of_split {text : String} {line : List Char}
    {before behind : List (List Char)} {offset : Nat}
    (hsplit : Line.fullLines text.toList = before ++ line :: behind)
    (hline : (ofText text).line offset = before.length + 1) :
    (ofText text).location offset =
      ⟨before.length + 1, offset - byteSize before.flatten + 1⟩ := by
  obtain ⟨start, hstart, -, hlocation⟩ := exists_start text offset
  rw [hline, Nat.add_sub_cancel, Line.start_of_split hsplit] at hstart
  obtain rfl := Option.some.inj hstart
  rw [hlocation, hline]

/-- For all texts. An offset that is a word has a place, unless it is the largest one and no line
feed stands before it. Its line is one more than the line feed bytes before it; the lines up to that
one are those that begin at the offset or before it, and its column is counted from the start of its
line. Later offsets have later places. A reader sees as many lines as there are full lines. And of
every byte of the text, the table gives the number of the full line that the byte is on and its
place among the bytes of that line; on the line of that number, and in a block of that line, a
reader sees the full line without what ends it. -/
theorem line_numbers_agree (text : String) :
    let table := LineTable.ofText text
    let bytes := Text.bytes text.toList
    (∀ offset < Text.wordLimit, table.location? offset = none ↔
        offset + 1 = Text.wordLimit ∧ 10 ∉ bytes.take offset) ∧
      (∀ offset, table.line offset = 1 + (bytes.take offset).count 10 ∧
        (∀ i start, table.starts[i]? = some start → (start ≤ offset ↔ i < table.line offset)) ∧
        ∃ start, table.starts[table.line offset - 1]? = some start ∧ start ≤ offset ∧
          ∀ place ∈ table.location? offset, place = ⟨table.line offset, offset - start + 1⟩) ∧
      (∀ offset later, offset < later → ∀ place ∈ table.location? offset,
        ∀ place' ∈ table.location? later, place.Before place') ∧
      (Line.linesOf text).length = (Line.fullLines text.toList).length ∧
      ∀ offset < bytes.length, ∀ place ∈ table.location? offset, ∃ before line behind seen,
        Line.fullLines text.toList = before ++ line :: behind ∧
        place = ⟨before.length + 1, offset - (Text.bytes before.flatten).length + 1⟩ ∧
        (Text.bytes before.flatten).length ≤ offset ∧
        offset < (Text.bytes before.flatten).length + (Text.bytes line).length ∧
        (Text.bytes line)[place.column - 1]? = bytes[offset]? ∧
        Line.Seen seen line ∧
        (Line.linesOf text)[place.line - 1]? = some (String.ofList seen) ∧
        (Block.mk place.line place.line none).lines text = [String.ofList seen] := by
  intro table bytes
  have hplaces : ∀ {offset place}, place ∈ table.location? offset → place = table.location offset :=
    fun hplace => (LineTable.location?_eq_some_iff.mp hplace).2
  refine ⟨fun offset => LineTable.location?_eq_none_iff, fun offset => ?_, ?_,
    Line.length_linesOf text, fun offset hoffset place hplace => ?_⟩
  · obtain ⟨start, hstart, hle, hlocation⟩ := LineTable.exists_start text offset
    refine ⟨LineTable.line_eq_count text offset,
      fun i start hstart => LineTable.start_le_iff hstart offset, start, hstart, hle, ?_⟩
    exact fun place hplace => (hplaces hplace).trans hlocation
  · intro offset later hlt place hplace place' hplace'
    rw [hplaces hplace, hplaces hplace']
    exact LineTable.location_before text hlt
  · obtain rfl := hplaces hplace
    rw [Text.length_bytes] at hoffset
    obtain ⟨before, line, behind, hsplit, hline, hle, hlt⟩ := Line.exists_line hoffset
    have hmem : line ∈ Line.fullLines text.toList := by simp [hsplit]
    have hlocation : table.location offset =
        ⟨before.length + 1, offset - byteSize before.flatten + 1⟩ :=
      LineTable.location_of_split hsplit hline
    refine ⟨before, line, behind, Line.visible line, hsplit, ?_⟩
    simp only [hlocation, Nat.add_sub_cancel, Text.length_bytes, true_and]
    exact ⟨hle, hlt, Line.getElem?_bytes hsplit hle hlt, Line.seen_visible hmem,
      Line.linesOf_of_split hsplit, Line.block_lines_of_split hsplit⟩

-- Columns are bytes: the carriage return in the first line has column 3.
example : (LineTable.ofText "é\r\nb").location 2 = ⟨1, 3⟩ := by decide

/-- The largest offset of all has no place in a text without a line feed: the offset before it has
the last column that is a word. Of the column behind that, a word keeps no more than zero. -/
theorem no_place_of_largest_offset :
    (LineTable.ofText "a").location? (Text.wordLimit - 2) = some ⟨1, Text.wordLimit - 1⟩ ∧
      (LineTable.ofText "a").location? (Text.wordLimit - 1) = none ∧
      ((LineTable.ofText "a").location (Text.wordLimit - 1)).column % Text.wordLimit = 0 ∧
      ¬ ∀ (text : String), ∀ offset < Text.wordLimit,
        ∃ place, (LineTable.ofText text).location? offset = some place := by
  have hnone : (LineTable.ofText "a").location? (Text.wordLimit - 1) = none := by
    refine (LineTable.location?_eq_none_iff (by decide)).mpr ⟨by decide, fun hmem => ?_⟩
    have hbytes : 10 ∉ Text.bytes "a".toList := by
      rw [Text.bytes_eq_flatMap]
      decide
    exact hbytes (List.mem_of_mem_take hmem)
  refine ⟨by decide, hnone, by decide, fun hall => ?_⟩
  obtain ⟨place, hplace⟩ := hall "a" (Text.wordLimit - 1) (by decide)
  cases hnone.symm.trans hplace

end XmlCompare
