import Mathlib.Data.List.Forall2
import Mathlib.Data.List.Induction
import XmlCompare.Proofs.Report.Projection

/-!
# One finding for the same details

Findings are made from the front of a list of differences, and of those with the same details the
first one stays. So to list more differences only adds findings at the end, for what is new, and
what is passed over leaves no trace: it neither becomes a finding nor keeps a later difference from
becoming one. From this step the whole list follows, difference by difference.
-/

set_option autoImplicit false

namespace XmlCompare

/-- A difference that calls for a finding: it is no number of children, it does not stand at a
document element, which has one step with the ordinal one, and the index knows its lines. -/
structure Difference.Actionable (index : PositionIndex) (d : Difference) : Prop where
  kind_ne : d.kind ≠ .childCount
  steps_ne : ∀ name, d.path.steps ≠ [⟨name, 1⟩]
  indexed : ∃ lines, index.get? d.path = some lines

/-- The path of a root element is one step with the ordinal one. -/
theorem Path.isDocumentElement_iff {p : Path} :
    p.isDocumentElement = true ↔ ∃ name, p.steps = [⟨name, 1⟩] := by
  unfold isDocumentElement
  split
  · rename_i step hsteps
    obtain ⟨name, ordinal⟩ := step
    simp [hsteps]
  · rename_i hother
    simp only [Bool.false_eq_true, false_iff]
    rintro ⟨name, hsteps⟩
    exact hother _ hsteps

namespace Finding

variable {index : PositionIndex} {differences : List Difference} {d : Difference} {f : Finding}
  {seen : List String} {findings : List Finding}

/-! ## What is kept of a list of findings -/

/-- What was seen besides may as well be left out afterwards. -/
theorem filter_distinct {more seen both : List String}
    (hboth : ∀ key, key ∈ both ↔ key ∈ more ∨ key ∈ seen) (findings : List Finding) :
    (distinct seen findings).filter (fun f => f.details ∉ more) = distinct both findings := by
  fun_induction distinct seen findings generalizing both with
  | case1 => rfl
  | case2 seen f rest hseen ih =>
    have hmem : f.details ∈ both := (hboth _).mpr (.inr (by simpa using hseen))
    rw [ih hboth, distinct, if_pos (by simpa using hmem)]
  | case3 seen f rest hnew ih =>
    by_cases hmore : f.details ∈ more
    · have hmem : f.details ∈ both := (hboth _).mpr (.inl hmore)
      rw [List.filter_cons_of_neg (by simpa using hmore), distinct, if_pos (by simpa using hmem)]
      refine ih fun key => ?_
      rw [hboth, List.mem_cons]
      constructor
      · rintro (hkey | hkey)
        · exact .inl hkey
        · exact .inr (.inr hkey)
      · rintro (hkey | rfl | hkey)
        · exact .inl hkey
        · exact .inl hmore
        · exact .inr hkey
    · have hmem : f.details ∉ both := fun h => ((hboth _).mp h).elim hmore (by simpa using hnew)
      rw [List.filter_cons_of_pos (by simpa using hmore), distinct, if_neg (by simpa using hmem)]
      congr 1
      refine ih fun key => ?_
      rw [List.mem_cons, List.mem_cons, hboth, or_left_comm]

/-- Of a longer list, what was kept stays, and what is new is added. -/
theorem distinct_append (seen : List String) (findings more : List Finding) :
    distinct seen (findings ++ more) = distinct seen findings ++
      (distinct seen more).filter fun f => f.details ∉ (distinct seen findings).map details := by
  fun_induction distinct seen findings with
  | case1 => simp
  | case2 seen f rest hseen ih => rw [List.cons_append, distinct, if_pos hseen, ih]
  | case3 seen f rest hnew ih =>
    have hseen : distinct (f.details :: seen) more =
        (distinct seen more).filter fun g => g.details ∉ [f.details] :=
      (filter_distinct (fun key => by simp) more).symm
    rw [List.cons_append, distinct, if_neg hnew, ih, hseen, List.filter_filter, List.cons_append]
    congr 2
    apply List.filter_congr
    intro g _
    simp only [List.map_cons, List.mem_cons, List.not_mem_nil, or_false, not_or, Bool.decide_and,
      Bool.and_comm]

/-- Among distinct findings no details occur twice. -/
theorem nodup_details_distinct (seen : List String) (findings : List Finding) :
    ((distinct seen findings).map details).Nodup := by
  fun_induction distinct seen findings with
  | case1 => exact .nil
  | case2 seen f rest _ ih => exact ih
  | case3 seen f rest _ ih =>
    rw [List.map_cons, List.nodup_cons]
    refine ⟨fun hmem => ?_, ih⟩
    obtain ⟨g, hg, hsame⟩ := List.mem_map.mp hmem
    exact details_of_mem_distinct hg (hsame ▸ List.mem_cons_self)

/-- No details are lost but those that were seen. -/
theorem mem_details_distinct {key : String} : key ∈ (distinct seen findings).map details ↔
    key ∈ findings.map details ∧ key ∉ seen := by
  fun_induction distinct seen findings with
  | case1 => simp
  | case2 seen f rest hseen ih =>
    rw [ih, List.map_cons, List.mem_cons]
    constructor
    · rintro ⟨hmem, hnew⟩
      exact ⟨.inr hmem, hnew⟩
    · rintro ⟨rfl | hmem, hnew⟩
      · exact absurd (by simpa using hseen) hnew
      · exact ⟨hmem, hnew⟩
  | case3 seen f rest hnew ih =>
    rw [List.map_cons, List.map_cons, List.mem_cons, List.mem_cons, ih, List.mem_cons, not_or]
    constructor
    · rintro (rfl | ⟨hmem, -, hnew'⟩)
      · exact ⟨.inl rfl, by simpa using hnew⟩
      · exact ⟨.inr hmem, hnew'⟩
    · rintro ⟨rfl | hmem, hnew'⟩
      · exact .inl rfl
      · by_cases hkey : key = f.details
        · exact .inl hkey
        · exact .inr ⟨hmem, hkey, hnew'⟩

/-! ## What one more difference adds -/

/-- An actionable difference is brought to its lines, and no other difference is. -/
theorem ofDifference?_eq_some_iff_actionable : ofDifference? index d = some f ↔
    d.Actionable index ∧ ∃ lines, index.get? d.path = some lines ∧
      f = ⟨lines.first, lines.last, showValue d.test, detailsOf d⟩ := by
  rw [ofDifference?_eq_some_iff, Difference.Quiet, Path.isDocumentElement_iff]
  constructor
  · rintro ⟨hquiet, lines, hlines, rfl⟩
    rw [not_or, not_exists] at hquiet
    exact ⟨⟨hquiet.1, hquiet.2, lines, hlines⟩, lines, hlines, rfl⟩
  · rintro ⟨hactionable, lines, hlines, rfl⟩
    refine ⟨?_, lines, hlines, rfl⟩
    rintro (hkind | ⟨name, hsteps⟩)
    · exact hactionable.kind_ne hkind
    · exact hactionable.steps_ne name hsteps

/-- A longer list of differences leads to the same findings and, behind them, to what is new. -/
theorem project_append (index : PositionIndex) (differences more : List Difference) :
    project index (differences ++ more) = project index differences ++
      (project index more).filter fun f => f.details ∉ (project index differences).map details := by
  unfold project
  rw [List.filterMap_append, distinct_append]

/-- One difference becomes the finding it calls for, if it calls for one. -/
theorem project_singleton (index : PositionIndex) (d : Difference) :
    project index [d] = (ofDifference? index d).toList := by
  unfold project
  cases h : ofDifference? index d with
  | none =>
    rw [List.filterMap_cons_none h]
    rfl
  | some f =>
    rw [List.filterMap_cons_some h]
    rfl

/-- One more difference leads to one more finding at most. -/
theorem project_concat (index : PositionIndex) (differences : List Difference) (d : Difference) :
    project index (differences ++ [d]) = project index differences ∨
      ∃ f, ofDifference? index d = some f ∧
        f.details ∉ (project index differences).map details ∧
        project index (differences ++ [d]) = project index differences ++ [f] := by
  rw [project_append, project_singleton]
  cases hd : ofDifference? index d with
  | none => exact .inl (List.append_nil _)
  | some f =>
    by_cases hmem : f.details ∈ (project index differences).map details
    · left
      rw [Option.toList_some, List.filter_cons_of_neg (by simpa using hmem), List.filter_nil,
        List.append_nil]
    · right
      refine ⟨f, rfl, hmem, ?_⟩
      rw [Option.toList_some, List.filter_cons_of_pos (by simpa using hmem), List.filter_nil]

/-- The details of the findings are those of the actionable differences. -/
theorem mem_details_project {key : String} : key ∈ (project index differences).map details ↔
    ∃ d ∈ differences, d.Actionable index ∧ detailsOf d = key := by
  rw [project, mem_details_distinct, and_iff_left List.not_mem_nil]
  simp only [List.mem_map, List.mem_filterMap, ofDifference?_eq_some_iff_actionable]
  constructor
  · rintro ⟨f, ⟨d, hd, hactionable, lines, -, rfl⟩, rfl⟩
    exact ⟨d, hd, hactionable, rfl⟩
  · rintro ⟨d, hd, hactionable, rfl⟩
    obtain ⟨lines, hlines⟩ := hactionable.indexed
    exact ⟨_, ⟨d, hd, hactionable, lines, hlines, rfl⟩, rfl⟩

/-! ## From which differences the findings come -/

/-- The difference at a position is actionable, no actionable one before it has its details, and it
leads to the finding. -/
inductive FirstAt (index : PositionIndex) (differences : List Difference) (position : Nat) :
    Finding → Prop
  | intro {d : Difference} {lines : LineRange} : differences[position]? = some d →
    d.Actionable index →
    (∀ d' ∈ differences.take position, d'.Actionable index → detailsOf d' ≠ detailsOf d) →
    index.get? d.path = some lines →
    FirstAt index differences position ⟨lines.first, lines.last, showValue d.test, detailsOf d⟩

/-- What comes first with its details is at one of the positions. -/
theorem FirstAt.lt_length {position : Nat} (h : FirstAt index differences position f) :
    position < differences.length := by
  obtain ⟨hd, -, -, -⟩ := h
  exact (List.getElem?_eq_some_iff.mp hd).1

/-- What comes behind does not matter to what comes first. -/
theorem FirstAt.append {position : Nat} (h : FirstAt index differences position f)
    (more : List Difference) : FirstAt index (differences ++ more) position f := by
  have hlt := h.lt_length
  obtain ⟨hd, hactionable, hfirst, hlines⟩ := h
  refine .intro ?_ hactionable ?_ hlines
  · rw [List.getElem?_append_left hlt, hd]
  · rw [List.take_append_of_le_length (Nat.le_of_lt hlt)]
    exact hfirst

/-- The findings come from the first differences with their details, in the order of these. -/
theorem exists_positions (index : PositionIndex) (differences : List Difference) :
    ∃ positions : List Nat, positions.Pairwise (· < ·) ∧
      (∀ position ∈ positions, position < differences.length) ∧
      List.Forall₂ (FirstAt index differences) positions (project index differences) := by
  induction differences using List.reverseRecOn with
  | nil => exact ⟨[], .nil, List.forall_mem_nil _, .nil⟩
  | append_singleton differences d ih =>
    obtain ⟨positions, hsorted, hbound, hfirst⟩ := ih
    have hlength : (differences ++ [d]).length = differences.length + 1 := List.length_append
    have hkept : List.Forall₂ (FirstAt index (differences ++ [d])) positions
        (project index differences) := hfirst.imp fun _ _ h => h.append [d]
    rcases project_concat index differences d with hsame | ⟨f, hd, hnew, hmore⟩
    · rw [hsame, hlength]
      exact ⟨positions, hsorted, fun i hi => Nat.lt_succ_of_lt (hbound i hi), hkept⟩
    · obtain ⟨hactionable, lines, hlines, rfl⟩ := ofDifference?_eq_some_iff_actionable.mp hd
      refine ⟨positions ++ [differences.length], ?_, ?_, ?_⟩
      · refine List.pairwise_append.mpr ⟨hsorted, List.pairwise_singleton _ _, ?_⟩
        intro i hi last hlast
        obtain rfl := List.mem_singleton.mp hlast
        exact hbound i hi
      · rw [hlength, List.forall_mem_append, List.forall_mem_singleton]
        exact ⟨fun i hi => Nat.lt_succ_of_lt (hbound i hi), Nat.lt_succ_self _⟩
      · rw [hmore]
        refine List.rel_append hkept (.cons (.intro ?_ hactionable ?_ hlines) .nil)
        · exact List.getElem?_concat_length
        · rw [List.take_left]
          intro d' hd' hactionable' hsame
          exact hnew (mem_details_project.mpr ⟨d', hd', hactionable', hsame⟩)

/-- Whatever the differences and the index are, no two findings have the same details, and for every
actionable difference there is one with its details. The findings come from the first actionable
differences with their details, in the order of these, with the lines and the value of the test side
of each. If more differences follow, the findings stay, and behind them come those that the others
lead to by themselves, but for details that are there already. -/
theorem project_keeps_first_of_details (index : PositionIndex) (differences : List Difference) :
    ((project index differences).map details).Nodup ∧
    (∀ d ∈ differences, d.Actionable index →
      ((project index differences).map details).count (detailsOf d) = 1) ∧
    (∃ positions : List Nat, positions.Pairwise (· < ·) ∧
      List.Forall₂ (FirstAt index differences) positions (project index differences)) ∧
    ∀ more, project index (differences ++ more) = project index differences ++
      (project index more).filter fun f => f.details ∉ (project index differences).map details := by
  have hnodup : ((project index differences).map details).Nodup := nodup_details_distinct [] _
  obtain ⟨positions, hsorted, -, hfirst⟩ := exists_positions index differences
  refine ⟨hnodup, ?_, ⟨positions, hsorted, hfirst⟩, project_append index differences⟩
  intro d hd hactionable
  exact List.count_eq_one_of_mem hnodup (mem_details_project.mpr ⟨d, hd, hactionable, rfl⟩)

/-- An index of a list with two items on a line each. -/
def twoLines : PositionIndex :=
  ⟨.ofList [(⟨[⟨"r", 1⟩, ⟨"i", 1⟩]⟩, .single 1), (⟨[⟨"r", 1⟩, ⟨"i", 2⟩]⟩, .single 2),
    (⟨[⟨"r", 1⟩]⟩, .between 1 2)]⟩

/-- A change that has the same details wherever it is. -/
def changeAt (kind : DifferenceKind) (steps : List Step) : Difference :=
  ⟨kind, "1", "2", ⟨steps⟩, "r", "i"⟩

/-- Three differences that are passed over, and two that are actionable. -/
def changes : List Difference :=
  [changeAt .childCount [⟨"r", 1⟩, ⟨"i", 1⟩], changeAt .textValue [⟨"r", 1⟩],
    changeAt .textValue [⟨"r", 1⟩, ⟨"i", 3⟩], changeAt .textValue [⟨"r", 1⟩, ⟨"i", 2⟩],
    changeAt .textValue [⟨"r", 1⟩, ⟨"i", 1⟩]]

/-- The finding is on the line of the first difference that is actionable. -/
theorem first_change_is_kept :
    project twoLines changes =
      [⟨2, 2, "2", detailsOf (changeAt .textValue [⟨"r", 1⟩, ⟨"i", 2⟩])⟩] ∧
    changeAt .textValue [⟨"r", 1⟩, ⟨"i", 1⟩] ∈ changes ∧
    (changeAt .textValue [⟨"r", 1⟩, ⟨"i", 1⟩]).Actionable twoLines ∧
    ((project twoLines changes).map details).count
      (detailsOf (changeAt .textValue [⟨"r", 1⟩, ⟨"i", 1⟩])) = 1 := by
  have hmem : changeAt .textValue [⟨"r", 1⟩, ⟨"i", 1⟩] ∈ changes := by decide
  have hactionable : (changeAt .textValue [⟨"r", 1⟩, ⟨"i", 1⟩]).Actionable twoLines := by
    refine ⟨by decide, fun name hsteps => ?_, .single 1, by decide⟩
    cases hsteps
  exact ⟨by decide, hmem, hactionable,
    (project_keeps_first_of_details twoLines changes).2.1 _ hmem hactionable⟩

end Finding

end XmlCompare
