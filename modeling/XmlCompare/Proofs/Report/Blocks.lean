import Mathlib.Data.List.Chain
import XmlCompare.Report.Block

/-!
# The blocks of a text

The blocks follow one another from the first line to the last. A block is either the lines that a
finding covers from some line on, or a run of lines that no finding covers. So a line that some
finding covers is in a block with a finding, no two runs without one meet, and the blocks show every
line once.
-/

set_option autoImplicit false

namespace XmlCompare.Block

variable {count line : Nat} {findings : List Finding} {blocks : List Block}

/-- A line is not covered exactly if it is outside of all findings. -/
theorem covering?_eq_none_iff :
    covering? findings line = none ↔ ∀ f ∈ findings, f.lines.containsLine line = false := by
  rw [covering?, List.find?_eq_none]
  simp only [Bool.not_eq_true]

/-- No finding covers the lines of a plain run behind its first one, and the run ends with the text
or before a line that a finding covers. -/
theorem lastPlain_spec (hle : line ≤ count) :
    lastPlain count findings line ≤ count ∧
      (∀ l, line < l → l ≤ lastPlain count findings line → covering? findings l = none) ∧
      (lastPlain count findings line < count →
        covering? findings (lastPlain count findings line + 1) ≠ none) := by
  fun_induction lastPlain count findings line with
  | case1 line hmore ih =>
    obtain ⟨hcount, hplain, hend⟩ := ih hmore.1
    refine ⟨hcount, fun l hl hlast => ?_, hend⟩
    rcases Nat.eq_or_lt_of_le hl with rfl | hl
    · exact hmore.2
    · exact hplain l hl hlast
  | case2 line hend =>
    exact ⟨hle, fun l hl hlast => absurd hl (Nat.not_lt.mpr hlast),
      fun hlt hnone => hend ⟨hlt, hnone⟩⟩

/-- Blocks that follow one another from a line to the end of a text. -/
inductive Grouped (count : Nat) (findings : List Finding) : Nat → List Block → Prop
  | done {line : Nat} : count < line → Grouped count findings line []
  /-- The lines of the first finding that covers the line at which the block begins. -/
  | covered {line : Nat} {f : Finding} {rest : List Block} : line ≤ count →
    covering? findings line = some f →
    Grouped count findings (min f.lines.last count + 1) rest →
    Grouped count findings line (⟨line, min f.lines.last count, some f⟩ :: rest)
  /-- Lines that no finding covers; one covers the line behind them. -/
  | plain {line last : Nat} {rest : List Block} : line ≤ last → last ≤ count →
    (∀ l, line ≤ l → l ≤ last → covering? findings l = none) →
    (last < count → covering? findings (last + 1) ≠ none) →
    Grouped count findings (last + 1) rest →
    Grouped count findings line (⟨line, last, none⟩ :: rest)

/-- The blocks that are made follow one another, each beginning where the one before it ends. -/
theorem grouped_groupFrom (count : Nat) (findings : List Finding) (line : Nat) :
    Grouped count findings line (groupFrom count findings line) := by
  fun_induction groupFrom count findings line with
  | case1 line hle _ ih =>
    unfold blockAt at ih ⊢
    split at ih
    · rename_i f hcovering
      exact .covered hle hcovering ih
    · rename_i hnone
      obtain ⟨hcount, hplain, hend⟩ := lastPlain_spec hle
      refine .plain (le_lastPlain count findings line) hcount (fun l hl hl' => ?_) hend ih
      rcases Nat.eq_or_lt_of_le hl with rfl | hl
      · exact hnone
      · exact hplain l hl hl'
  | case2 line hbehind => exact .done (Nat.lt_of_not_le hbehind)

/-- No block goes on behind the last line. -/
theorem last_blockAt_le (hle : line ≤ count) (findings : List Finding) :
    (blockAt count findings line).lastLine ≤ count := by
  unfold blockAt
  split
  · exact Nat.min_le_right _ _
  · exact (lastPlain_spec hle).1

/-! ## Blocks in checked arithmetic -/

/-- Where the number behind the last line is a word, so are all numbers behind blocks. -/
theorem groupFrom?_eq_some (hcount : count + 1 < Text.wordLimit) (findings : List Finding)
    (line : Nat) : groupFrom? count findings line = some (groupFrom count findings line) := by
  fun_induction groupFrom count findings line with
  | case1 line hle _ ih =>
    have hlast := last_blockAt_le hle findings
    have hnext : Word.add? (blockAt count findings line).lastLine 1 =
        some ((blockAt count findings line).lastLine + 1) :=
      Word.add?_eq_some_iff.mpr ⟨by omega, rfl⟩
    rw [groupFrom?, dif_pos hle]
    split
    · rename_i hnone
      cases hnone.symm.trans hnext
    · rename_i next hsome
      obtain rfl := Option.some.inj (hsome.symm.trans hnext)
      rw [ih]
      rfl
  | case2 line hbehind => rw [groupFrom?, dif_neg hbehind]

/-- Where it is none, the blocks come to a line behind which there is no number. -/
theorem groupFrom?_eq_none (hcount : Text.wordLimit ≤ count + 1) (hle : line ≤ count) :
    groupFrom? count findings line = none := by
  fun_induction groupFrom? count findings line with
  | case1 line _ hnone => rfl
  | case2 line _ next hnext _ ih =>
    have hlt := (Word.add?_eq_some_iff.mp hnext).1
    rw [ih (by have := (Word.add?_eq_some_iff.mp hnext).2; omega)]
    rfl
  | case3 line hbehind => exact absurd hle hbehind

/-- Lines can be put into blocks unless there are as many as the largest word, or more. -/
theorem group?_eq_none_iff : group? count findings = none ↔ Text.wordLimit ≤ count + 1 := by
  constructor
  · intro hnone
    by_contra hcount
    rw [group?, groupFrom?_eq_some (Nat.lt_of_not_le hcount)] at hnone
    cases hnone
  · intro hcount
    have hone : 1 < Text.wordLimit := by decide
    exact groupFrom?_eq_none hcount (by omega)

/-- If there are blocks in checked arithmetic, they are those that there are without bounds. -/
theorem eq_group_of_group? (h : group? count findings = some blocks) :
    blocks = group count findings := by
  have hcount : count + 1 < Text.wordLimit := by
    by_contra hlarge
    rw [group?_eq_none_iff.mpr (Nat.le_of_not_lt hlarge)] at h
    cases h
  rw [group?, groupFrom?_eq_some hcount] at h
  exact (Option.some.inj h).symm

/-- A line that a finding covers is in a block with a finding. -/
theorem Grouped.exists_block (h : Grouped count findings line blocks) {covered : Nat}
    (hline : line ≤ covered) (hcount : covered ≤ count)
    (hcovered : covering? findings covered ≠ none) :
    ∃ b ∈ blocks, b.firstLine ≤ covered ∧ covered ≤ b.lastLine ∧
      ∃ f ∈ findings, b.finding = some f := by
  induction h with
  | done hbehind => omega
  | @covered line f rest _ hfirst _ ih =>
    by_cases hhere : covered ≤ min f.lines.last count
    · exact ⟨_, List.mem_cons_self, hline, hhere, f, List.mem_of_find?_eq_some hfirst, rfl⟩
    · obtain ⟨b, hb, hblock⟩ := ih (by omega)
      exact ⟨b, List.mem_cons_of_mem _ hb, hblock⟩
  | @plain line last rest _ _ hplain _ _ ih =>
    by_cases hhere : covered ≤ last
    · exact absurd (hplain covered hline hhere) hcovered
    · obtain ⟨b, hb, hblock⟩ := ih (by omega)
      exact ⟨b, List.mem_cons_of_mem _ hb, hblock⟩

/-- A finding on lines of the text makes a block with a finding out of each of its lines. -/
theorem exists_block_of_mem {f : Finding} (hf : f ∈ findings)
    (hline : f.lines.containsLine line = true) (hfirst : 1 ≤ line) (hcount : line ≤ count) :
    ∃ b ∈ group count findings, b.firstLine ≤ line ∧ line ≤ b.lastLine ∧
      ∃ g ∈ findings, b.finding = some g := by
  refine (grouped_groupFrom count findings 1).exists_block hfirst hcount fun hnone => ?_
  rw [covering?_eq_none_iff.mp hnone f hf] at hline
  cases hline

/-! ## All blocks together -/

/-- The numbers of the lines of a block. -/
def numbers (b : Block) : List Nat := List.range' b.firstLine (b.lastLine + 1 - b.firstLine)

/-- The numbers of a block go from its first line to its last. -/
theorem mem_numbers {b : Block} : line ∈ b.numbers ↔ b.firstLine ≤ line ∧ line ≤ b.lastLine := by
  rw [numbers, List.mem_range'_1]
  omega

namespace Grouped

/-- No block is empty. -/
theorem first_le_last (h : Grouped count findings line blocks) :
    ∀ b ∈ blocks, b.firstLine ≤ b.lastLine := by
  induction h with
  | done => simp
  | covered hcount hfirst _ ih =>
    exact List.forall_mem_cons.mpr ⟨Nat.le_min.mpr ⟨le_last_of_covering? hfirst, hcount⟩, ih⟩
  | plain hle _ _ _ _ ih => exact List.forall_mem_cons.mpr ⟨hle, ih⟩

/-- The lines of the blocks are the lines from the first one to the end, in order. -/
theorem flatMap_numbers (h : Grouped count findings line blocks) :
    blocks.flatMap numbers = List.range' line (count + 1 - line) := by
  -- Some lines, and those behind them.
  have hsplit : ∀ {first last : Nat}, first ≤ last → last ≤ count →
      List.range' first (last + 1 - first) ++ List.range' (last + 1) (count + 1 - (last + 1)) =
        List.range' first (count + 1 - first) := by
    intro first last hle hcount
    have hnext : last + 1 = first + (last + 1 - first) := by omega
    have hsum : last + 1 - first + (count + 1 - (last + 1)) = count + 1 - first := by omega
    rw [← hsum, ← List.range'_append_1, ← hnext]
  induction h with
  | done hbehind =>
    rw [Nat.sub_eq_zero_of_le hbehind]
    rfl
  | covered hcount hfirst _ ih =>
    rw [List.flatMap_cons, ih]
    exact hsplit (Nat.le_min.mpr ⟨le_last_of_covering? hfirst, hcount⟩) (Nat.min_le_right _ _)
  | plain hle hcount _ _ _ ih =>
    rw [List.flatMap_cons, ih]
    exact hsplit hle hcount

/-- A block with a finding begins on a line that this is the first finding to cover, and goes on to
the end of the finding or of the text. -/
theorem covering_of_finding (h : Grouped count findings line blocks) : ∀ b ∈ blocks,
    ∀ f ∈ b.finding, covering? findings b.firstLine = some f ∧
      b.lastLine = min f.lines.last count := by
  induction h with
  | done => simp
  | covered _ hfirst _ ih =>
    refine List.forall_mem_cons.mpr ⟨?_, ih⟩
    rintro f ⟨⟩
    exact ⟨hfirst, rfl⟩
  | plain _ _ _ _ _ ih =>
    refine List.forall_mem_cons.mpr ⟨?_, ih⟩
    rintro f ⟨⟩

/-- No finding covers a line of a block without one. -/
theorem not_covered_of_plain (h : Grouped count findings line blocks) : ∀ b ∈ blocks,
    b.finding = none → ∀ l ∈ b.numbers, covering? findings l = none := by
  induction h with
  | done => simp
  | covered _ _ _ ih =>
    refine List.forall_mem_cons.mpr ⟨?_, ih⟩
    rintro ⟨⟩
  | plain _ _ hplain _ _ ih =>
    refine List.forall_mem_cons.mpr ⟨fun _ l hl => ?_, ih⟩
    obtain ⟨hfirst, hlast⟩ := mem_numbers.mp hl
    exact hplain l hfirst hlast

/-- The first block has a finding if one covers the line at which it begins. -/
theorem finding_ne_none (h : Grouped count findings line blocks)
    (hcovered : line ≤ count → covering? findings line ≠ none) :
    ∀ b ∈ blocks.head?, b.finding ≠ none := by
  cases h with
  | done => simp
  | covered =>
    rintro b ⟨⟩ ⟨⟩
  | plain hle hcount hplain _ _ =>
    exact absurd (hplain line (Nat.le_refl _) hle) (hcovered (Nat.le_trans hle hcount))

/-- Of two neighbours one has a finding. -/
theorem isChain (h : Grouped count findings line blocks) :
    blocks.IsChain fun a b => a.finding ≠ none ∨ b.finding ≠ none := by
  induction h with
  | done => exact .nil
  | covered _ _ _ ih => exact List.isChain_cons.mpr ⟨fun b _ => .inl nofun, ih⟩
  | plain _ _ _ hend hrest ih =>
    refine List.isChain_cons.mpr ⟨fun b hb => .inr ?_, ih⟩
    exact hrest.finding_ne_none (fun hle => hend hle) b hb

/-- The blocks of a text show its lines from the first one on. -/
theorem flatMap_lines {text : String}
    (h : Grouped (Line.linesOf text).length findings line blocks) (hline : 1 ≤ line) :
    blocks.flatMap (·.lines text) = (Line.linesOf text).drop (line - 1) := by
  -- Some lines, and those behind them.
  have hsplit : ∀ {first last : Nat}, 1 ≤ first → first ≤ last →
      ((Line.linesOf text).drop (first - 1)).take (last + 1 - first) ++
        (Line.linesOf text).drop (last + 1 - 1) = (Line.linesOf text).drop (first - 1) := by
    intro first last hfirst hle
    have hsum : last + 1 - 1 = first - 1 + (last + 1 - first) := by omega
    rw [hsum, ← List.drop_drop, List.take_append_drop]
  generalize hcount : (Line.linesOf text).length = count at h
  induction h with
  | done hbehind =>
    rw [List.drop_eq_nil_of_le (by omega)]
    rfl
  | covered hle hfirst _ ih =>
    rw [List.flatMap_cons, ih (by omega)]
    exact hsplit hline (Nat.le_min.mpr ⟨le_last_of_covering? hfirst, hle⟩)
  | plain hle _ _ _ _ ih =>
    rw [List.flatMap_cons, ih (by omega)]
    exact hsplit hline hle

end Grouped

/-- Whatever lines the findings are on: there are blocks exactly if the number behind the last
line is a word. No block is empty, and the blocks have every line once, in order. The finding
of a block covers all its lines and is the first one to cover the first of them, and the block
ends where the finding or the text does. No finding covers a line of a block without one, and
no two such blocks are neighbours. Where there are as many lines as in a text, the blocks show
the lines of that text. -/
theorem group_partitions_lines (count : Nat) (findings : List Finding) :
    (group? count findings = none ↔ Text.wordLimit ≤ count + 1) ∧
    ∀ blocks, group? count findings = some blocks →
      (∀ b ∈ blocks, b.firstLine ≤ b.lastLine) ∧
      blocks.flatMap numbers = List.range' 1 count ∧
      (∀ b ∈ blocks, ∀ f, b.finding = some f →
        (∀ l ∈ b.numbers, f.lines.containsLine l = true) ∧
        (∃ before after, findings = before ++ f :: after ∧
          f.lines.containsLine b.firstLine = true ∧
          ∀ g ∈ before, g.lines.containsLine b.firstLine = false) ∧
        b.lastLine = min f.lines.last count) ∧
      (∀ b ∈ blocks, b.finding = none →
        ∀ l ∈ b.numbers, ∀ f ∈ findings, f.lines.containsLine l = false) ∧
      blocks.IsChain (fun a b => a.finding ≠ none ∨ b.finding ≠ none) ∧
      ∀ text, count = (Line.linesOf text).length →
        blocks.flatMap (·.lines text) = Line.linesOf text := by
  refine ⟨group?_eq_none_iff, fun blocks hblocks => ?_⟩
  obtain rfl := eq_group_of_group? hblocks
  have hgrouped := grouped_groupFrom count findings 1
  refine ⟨hgrouped.first_le_last, ?_, ?_, ?_, hgrouped.isChain, ?_⟩
  · exact hgrouped.flatMap_numbers
  · intro b hb f hf
    obtain ⟨hcovering, hlast⟩ := hgrouped.covering_of_finding b hb f hf
    obtain ⟨hcovers, before, after, hsplit, hbefore⟩ :=
      List.find?_eq_some_iff_append.mp hcovering
    refine ⟨fun l hl => ?_, ⟨before, after, hsplit, hcovers, by simpa using hbefore⟩, hlast⟩
    rw [LineRange.containsLine_iff] at hcovers ⊢
    rw [mem_numbers] at hl
    omega
  · intro b hb hplain l hl
    exact covering?_eq_none_iff.mp (hgrouped.not_covered_of_plain b hb hplain l hl)
  · rintro text rfl
    exact hgrouped.flatMap_lines (Nat.le_refl 1)

/-- A finding on all lines that have numbers. -/
def boundless : Finding := ⟨1, Text.wordLimit - 1, "m", "d"⟩

/-- As many lines as the largest word have no blocks: a block that ends with the last of them has no
line behind it from which to go on. -/
theorem no_blocks_of_largest_count :
    group? (Text.wordLimit - 1) [boundless] = none ∧
      ¬ ∀ count < Text.wordLimit, ∀ findings, ∃ blocks, group? count findings = some blocks := by
  have hnone : group? (Text.wordLimit - 1) [boundless] = none :=
    group?_eq_none_iff.mpr (by decide)
  refine ⟨hnone, fun hall => ?_⟩
  obtain ⟨blocks, hblocks⟩ := hall (Text.wordLimit - 1) (by decide) [boundless]
  cases hnone.symm.trans hblocks

end XmlCompare.Block
