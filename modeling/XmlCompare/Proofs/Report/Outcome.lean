import XmlCompare.Proofs.Document.Agreement
import XmlCompare.Report.Verdict

/-!
# Comparisons and verdicts

A verdict is made of a comparison, but the control text is indexed before it is compared, and both
look for blank texts by themselves. It makes no difference: a control text has no index for the same
reason for which it cannot be compared. So a verdict is what the differences call for, and a text is
malformed to both or to neither.
-/

set_option autoImplicit false

namespace XmlCompare

/-- The differences that a comparison found. -/
def Outcome.differences : Outcome → List Difference
  | same => []
  | different differences => differences
  | malformed _ => []

namespace Verdict

/-- The verdict that some findings call for. -/
def ofFindings (findings : List Finding) : Verdict :=
  if findings = [] then valid else invalid findings

/-- Without findings the verdict is that nothing is wrong. -/
theorem ofFindings_nil : ofFindings [] = valid := rfl

/-- With a finding the verdict is that something is wrong. -/
theorem ofFindings_cons (f : Finding) (fs : List Finding) : ofFindings (f :: fs) = invalid (f :: fs) :=
  if_neg (List.cons_ne_nil f fs)

/-- Findings do not make a text malformed. -/
theorem ofFindings_ne_malformed (findings : List Finding) (cause : Malformed) :
    ofFindings findings ≠ malformed cause := by
  cases findings with
  | nil => exact Verdict.noConfusion
  | cons f fs =>
    rw [ofFindings_cons]
    exact Verdict.noConfusion

/-- Something is wrong only where there are findings. -/
theorem ofFindings_ne_invalid_nil (findings : List Finding) : ofFindings findings ≠ invalid [] := by
  cases findings with
  | nil => exact Verdict.noConfusion
  | cons f fs =>
    rw [ofFindings_cons]
    exact fun h => List.cons_ne_nil f fs (Verdict.invalid.inj h)

end Verdict

/-- The verdict of a snapshot is made of the comparison with its text: it is malformed if that is,
and else what the differences call for. -/
theorem Snapshot.verify_eq (s : Snapshot) (selectors : List Selector) (test : String) :
    s.verify selectors test =
      match compareTexts selectors s.text test with
      | .malformed cause => .malformed cause
      | outcome => .ofFindings (Finding.project s.index outcome.differences) := by
  unfold verify
  cases compareTexts selectors s.text test with
  | same => rfl
  | malformed cause => rfl
  | different differences =>
    dsimp only [Outcome.differences]
    split
    · rename_i hnone
      rw [hnone, Verdict.ofFindings_nil]
    · rename_i f fs hsome
      rw [hsome, Verdict.ofFindings_cons]

/-- A snapshot keeps the text that was indexed. -/
theorem Snapshot.ofText_eq_ok_iff {s : Snapshot} {text : String} :
    ofText text = .ok s ↔ PositionIndex.build text = .ok s.index ∧ s.text = text := by
  obtain ⟨source, index⟩ := s
  unfold ofText
  cases PositionIndex.build text with
  | error error => simp [Except.map]
  | ok found => simp [Except.map, and_comm, @eq_comm _ text]

variable {control test : String}

/-- A blank text is compared with nothing, and nothing is found. -/
theorem same_of_blank (h : (Text.isBlankText control || Text.isBlankText test) = true) :
    compareTexts Selector.standard control test = .same ∧ verify control test = .valid := by
  constructor
  · rw [compareTexts, if_pos h]
  · rw [verify, if_pos h]

/-- A control text that is no document is malformed to a comparison and to a verdict, before the
test text is read. -/
theorem malformed_of_parse_error {error : ParseError}
    (h : (Text.isBlankText control || Text.isBlankText test) = false)
    (hcontrol : Document.parse control = .error error) :
    compareTexts Selector.standard control test = .malformed ⟨.control, error⟩ ∧
      verify control test = .malformed ⟨.control, error⟩ := by
  have hbuild := Document.build_of_parse_error hcontrol
  constructor
  · simp [compareTexts, h, hcontrol]
  · simp [verify, h, Snapshot.ofText, hbuild, Except.map]

/-- A verdict on a control text that is a document is the verdict of its snapshot. -/
theorem exists_snapshot {c : Document}
    (h : (Text.isBlankText control || Text.isBlankText test) = false)
    (hcontrol : Document.parse control = .ok c) :
    ∃ index, PositionIndex.build control = .ok index ∧
      verify control test = (Snapshot.mk control index).verify Selector.standard test := by
  obtain ⟨-, -, index, hbuild, -⟩ := Document.index_of_parse hcontrol
  refine ⟨index, hbuild, ?_⟩
  simp [verify, h, Snapshot.ofText, hbuild, Except.map]

/-- A verdict is malformed exactly if the comparison is, on the same side and for the same reason.
Otherwise it is valid if one of the texts is blank, and if none is, the control text has an index
and the verdict is valid or invalid as the differences call for no findings or for some. The
findings of an invalid verdict are never none. -/
theorem verify_agrees_with_compareTexts (control test : String) :
    (∀ cause, verify control test = .malformed cause ↔
      compareTexts Selector.standard control test = .malformed cause) ∧
    (match compareTexts Selector.standard control test with
      | .malformed cause => verify control test = .malformed cause
      | outcome =>
        if Text.isBlankText control || Text.isBlankText test then verify control test = .valid
        else ∃ index, PositionIndex.build control = .ok index ∧
          verify control test = .ofFindings (Finding.project index outcome.differences)) ∧
    verify control test ≠ .invalid [] := by
  cases hblank : Text.isBlankText control || Text.isBlankText test with
  | true =>
    obtain ⟨hsame, hvalid⟩ := same_of_blank hblank
    rw [hsame, hvalid]
    simp
  | false =>
    cases hcontrol : Document.parse control with
    | error error =>
      obtain ⟨hcompare, hverify⟩ := malformed_of_parse_error hblank hcontrol
      rw [hcompare, hverify]
      simp
    | ok c =>
      obtain ⟨index, hbuild, hverify⟩ := exists_snapshot hblank hcontrol
      rw [hverify, Snapshot.verify_eq, hbuild]
      cases compareTexts Selector.standard control test with
      | malformed cause => simp
      | same => simp [Verdict.ofFindings_ne_malformed, Verdict.ofFindings_ne_invalid_nil]
      | different differences =>
        simp [Verdict.ofFindings_ne_malformed, Verdict.ofFindings_ne_invalid_nil]

end XmlCompare
