import XmlCompare.Proofs.Compare.Soundness
import XmlCompare.Proofs.Document.Agreement
import XmlCompare.Report.Verdict

/-!
# From differences to findings

What is addressed at an element of a document is found in the index of its text. So a difference
calls for no finding only if it is a number of children or stands at the document element, and a
verdict on a document is valid exactly when all differences are of these two sorts.
-/

set_option autoImplicit false

namespace XmlCompare

variable {selectors : List Selector} {control test : String} {c t : Document} {d : Difference}

/-- A difference that calls for no finding: a number of children, or one at the document element. -/
def Difference.Quiet (d : Difference) : Prop :=
  d.kind = .childCount ∨ d.path.isDocumentElement = true

namespace Finding

/-- Dropping repetitions leaves nothing only of nothing. -/
theorem distinct_eq_nil_iff {findings : List Finding} :
    distinct [] findings = [] ↔ findings = [] := by
  cases findings with
  | nil => simp [distinct]
  | cons f rest => simp [distinct]

/-- A difference that calls for a finding is brought to the lines of the element it stands at. -/
theorem ofDifference?_of_not_quiet {index : PositionIndex} {lines : LineRange}
    (hlines : index.get? d.path = some lines) (hquiet : ¬ d.Quiet) :
    ofDifference? index d = some ⟨lines.first, lines.last, showValue d.test, detailsOf d⟩ := by
  unfold Difference.Quiet at hquiet
  rw [not_or] at hquiet
  rw [ofDifference?, hlines, if_neg (by simpa using hquiet)]
  rfl

/-- A quiet difference calls for no finding. -/
theorem ofDifference?_of_quiet {index : PositionIndex} (hquiet : d.Quiet) :
    ofDifference? index d = none := by
  rw [ofDifference?, if_pos]
  rcases hquiet with hkind | hpath
  · simp [hkind]
  · simp [hpath]

/-- A finding comes from a difference that calls for one, and is on the lines its path leads to. -/
theorem ofDifference?_eq_some_iff {index : PositionIndex} {f : Finding} :
    ofDifference? index d = some f ↔ ¬ d.Quiet ∧ ∃ lines, index.get? d.path = some lines ∧
      f = ⟨lines.first, lines.last, showValue d.test, detailsOf d⟩ := by
  by_cases hquiet : d.Quiet
  · simp [ofDifference?_of_quiet hquiet, hquiet]
  · cases hlines : index.get? d.path with
    | none => simp [ofDifference?, hlines]
    | some lines => simp [ofDifference?_of_not_quiet hlines hquiet, hquiet, eq_comm]

/-- What is left without repetitions was there, in the same order. -/
theorem distinct_sublist (seen : List String) (findings : List Finding) :
    (distinct seen findings).Sublist findings := by
  fun_induction distinct seen findings with
  | case1 => exact .slnil
  | case2 seen f rest _ ih => exact ih.cons f
  | case3 seen f rest _ ih => exact ih.cons_cons f

/-- What is kept has other details than what was seen. -/
theorem details_of_mem_distinct {seen : List String} {findings : List Finding} {f : Finding}
    (h : f ∈ distinct seen findings) : f.details ∉ seen := by
  fun_induction distinct seen findings with
  | case1 => exact absurd h List.not_mem_nil
  | case2 seen f' rest _ ih => exact ih h
  | case3 seen f' rest hnew ih =>
    rcases List.mem_cons.mp h with rfl | h
    · simpa using hnew
    · exact fun hseen => ih h (List.mem_cons_of_mem _ hseen)

/-- A finding comes from one of the differences. -/
theorem exists_of_mem_project {index : PositionIndex} {differences : List Difference} {f : Finding}
    (hf : f ∈ project index differences) : ∃ d ∈ differences, ofDifference? index d = some f :=
  List.mem_filterMap.mp ((distinct_sublist [] _).subset hf)

/-- A difference whose path is in the index calls for no finding only if it is quiet. -/
theorem ofDifference?_eq_none_iff {index : PositionIndex} {lines : LineRange}
    (hlines : index.get? d.path = some lines) : ofDifference? index d = none ↔ d.Quiet := by
  refine ⟨fun hnone => ?_, ofDifference?_of_quiet⟩
  by_contra hquiet
  rw [ofDifference?_of_not_quiet hlines hquiet] at hnone
  cases hnone

/-- Where every difference is addressed in the index, nothing is found only if all are quiet. -/
theorem project_eq_nil_iff {index : PositionIndex} {differences : List Difference}
    (hindex : ∀ d ∈ differences, (index.get? d.path).isSome = true) :
    project index differences = [] ↔ ∀ d ∈ differences, d.Quiet := by
  rw [project, distinct_eq_nil_iff, List.filterMap_eq_nil_iff]
  refine forall₂_congr fun d hd => ?_
  obtain ⟨lines, hlines⟩ := Option.isSome_iff_exists.mp (hindex d hd)
  exact ofDifference?_eq_none_iff hlines

end Finding

/-- Every difference of two documents is addressed in an index that lists the control elements. -/
theorem isSome_get?_of_mem_differences {index : PositionIndex}
    (hperm : index.entries.entries.Perm (c.root.all.map Element.entry))
    (hd : d ∈ c.differences selectors t) : (index.get? d.path).isSome = true := by
  obtain ⟨x, hx, hpath⟩ := Element.path_of_mem_differences hd
  rw [hpath, PositionIndex.get?_of_perm hperm hx]
  rfl

/-- Two documents are compared by their roots. -/
theorem compareTexts_of_parse (hcontrol : Document.parse control = .ok c)
    (htest : Document.parse test = .ok t) : compareTexts selectors control test =
      if c.differences selectors t = [] then .same else .different (c.differences selectors t) := by
  unfold compareTexts
  simp only [Document.isBlankText_of_parse hcontrol, Document.isBlankText_of_parse htest,
    Bool.or_self, Bool.false_eq_true, if_false, hcontrol, htest]
  cases c.differences selectors t <;> rfl

/-- Only documents differ. -/
theorem exists_documents_of_different {differences : List Difference}
    (h : compareTexts selectors control test = .different differences) :
    ∃ c t, Document.parse control = .ok c ∧ Document.parse test = .ok t ∧
      c.differences selectors t = differences := by
  unfold compareTexts at h
  split at h
  · cases h
  · cases hc : Document.parse control with
    | error error => simp [hc] at h
    | ok c =>
      cases ht : Document.parse test with
      | error error => simp [hc, ht] at h
      | ok t =>
        refine ⟨c, t, rfl, rfl, ?_⟩
        cases hd : c.differences selectors t with
        | nil => simp [hc, ht, hd] at h
        | cons d ds => simpa [hc, ht, hd] using h

/-- A text that is neither blank nor a document is malformed. -/
theorem compareTexts_of_parse_error {error : ParseError} (hcontrol : Document.parse control = .ok c)
    (hblank : Text.isBlankText test = false) (htest : Document.parse test = .error error) :
    compareTexts selectors control test = .malformed ⟨.test, error⟩ := by
  unfold compareTexts
  simp only [Document.isBlankText_of_parse hcontrol, hblank, Bool.or_self, Bool.false_eq_true,
    if_false, hcontrol, htest]

namespace Snapshot

/-- The verdict on a document is what the differences call for. -/
theorem verify_of_parse {index : PositionIndex} (hcontrol : Document.parse control = .ok c)
    (htest : Document.parse test = .ok t) : (mk control index).verify selectors test =
      if Finding.project index (c.differences selectors t) = [] then .valid
      else .invalid (Finding.project index (c.differences selectors t)) := by
  unfold verify
  rw [compareTexts_of_parse hcontrol htest]
  by_cases hnil : c.differences selectors t = []
  · rw [if_pos hnil, hnil]
    rfl
  · rw [if_neg hnil]
    cases hfound : Finding.project index (c.differences selectors t) <;> simp [hfound]

/-- A snapshot finds a text valid only if the text is a document and all differences are quiet. -/
theorem quiet_of_verify_valid {index : PositionIndex} (hcontrol : Document.parse control = .ok c)
    (hblank : Text.isBlankText test = false)
    (hperm : index.entries.entries.Perm (c.root.all.map Element.entry))
    (h : (mk control index).verify selectors test = .valid) :
    ∃ t, Document.parse test = .ok t ∧ ∀ d ∈ c.differences selectors t, d.Quiet := by
  cases htest : Document.parse test with
  | error error =>
    rw [verify, compareTexts_of_parse_error hcontrol hblank htest] at h
    cases h
  | ok t =>
    refine ⟨t, rfl, ?_⟩
    rw [verify_of_parse hcontrol htest] at h
    have hnil : Finding.project index (c.differences selectors t) = [] := by
      by_contra hsome
      rw [if_neg hsome] at h
      cases h
    exact (Finding.project_eq_nil_iff fun d => isSome_get?_of_mem_differences hperm).mp hnil

end Snapshot

/-- A verdict on two documents is the verdict of the snapshot of the control text. -/
theorem verify_eq_snapshot {index : PositionIndex} (hcontrol : Document.parse control = .ok c)
    (htest : Document.parse test = .ok t) (hbuild : PositionIndex.build control = .ok index) :
    verify control test = (Snapshot.mk control index).verify Selector.standard test := by
  rw [verify, Document.isBlankText_of_parse hcontrol, Document.isBlankText_of_parse htest,
    Snapshot.ofText, hbuild]
  rfl

/-- With the standard selectors the verdict on two documents is what the differences call for. -/
theorem verify_of_build {index : PositionIndex} (hcontrol : Document.parse control = .ok c)
    (htest : Document.parse test = .ok t) (hbuild : PositionIndex.build control = .ok index) :
    verify control test =
      if Finding.project index (c.differences Selector.standard t) = [] then .valid
      else .invalid (Finding.project index (c.differences Selector.standard t)) := by
  rw [verify_eq_snapshot hcontrol htest hbuild, Snapshot.verify_of_parse hcontrol htest]

/-- Documents between which nothing differs are the same, and the verdict is valid. -/
theorem valid_of_no_differences (hcontrol : Document.parse control = .ok c)
    (htest : Document.parse test = .ok t) (h : c.differences Selector.standard t = []) :
    compareTexts Selector.standard control test = .same ∧ verify control test = .valid := by
  obtain ⟨-, -, index, hbuild, -⟩ := Document.index_of_parse hcontrol
  constructor
  · rw [compareTexts_of_parse hcontrol htest, if_pos h]
  · rw [verify_of_build hcontrol htest hbuild, h]
    rfl

end XmlCompare
