import XmlCompare.Proofs.Compare.Values
import XmlCompare.Proofs.Report.Order

/-!
# What a finding asks for

A finding asks for the value of the test side. It would ask for nothing if the control side had the
same, and that happens in one case: the value of an attribute has been changed in the blanks around
it only. The names of the roots can show alike too, but no finding is about them. Besides, what a
side does not have is shown as a word, and the value of the other side may be this word.
-/

set_option autoImplicit false

namespace XmlCompare

open Element (Compared NamesShownAlike ValuesShownAlike)

/-- A difference shows the same on both sides exactly if it is about the roots and their names,
which are not the same, show alike, or about an attribute of compared elements, of which the values
differ in the blanks around them only. A finding is about no names of roots. So it shows the same on
both sides for such an attribute only, or because one side has nothing and the other shows the word
that stands for this. -/
theorem sides_shown_alike (control test : String) (differences : List Difference)
    (hdifferent : compareTexts Selector.standard control test = .different differences) :
    ∃ c t, Document.parse control = .ok c ∧ Document.parse test = .ok t ∧
      (∀ d ∈ differences, d.control = d.test ↔
        NamesShownAlike Element.documentTag c.root t.root d ∨
          ∃ tag a b, Compared Selector.standard Element.documentTag c.root t.root tag a b ∧
            ValuesShownAlike a b d) ∧
      ∃ index, PositionIndex.build control = .ok index ∧
        ∀ f ∈ (verify control test).findings, ∃ d ∈ differences,
          Finding.ofDifference? index d = some f ∧
          (showValue d.control = showValue d.test →
            (∃ tag a b, Compared Selector.standard Element.documentTag c.root t.root tag a b ∧
              ValuesShownAlike a b d) ∨
            d.control = none ∧ d.test = some "null" ∨ d.control = some "null" ∧ d.test = none) := by
  obtain ⟨c, t, hcontrol, htest, rfl⟩ := exists_documents_of_different hdifferent
  obtain ⟨hplaced, -, index, hbuild, -⟩ := Document.index_of_parse hcontrol
  have hsame := fun d (hd : d ∈ c.differences Selector.standard t) =>
    Element.control_eq_test_iff_of_standard hd
  refine ⟨c, t, hcontrol, htest, hsame, index, hbuild, fun f hf => ?_⟩
  rw [verify_eq_snapshot hcontrol htest hbuild, Snapshot.findings_verify hcontrol htest] at hf
  obtain ⟨d, hd, hfound⟩ := Finding.exists_of_mem_project hf
  refine ⟨d, hd, hfound, fun hshown => ?_⟩
  rcases showValue_eq_iff.mp hshown with hvalues | hnone
  · rcases (hsame d hd).mp hvalues with hnames | hattribute
    · -- The names of the roots stand at the document element.
      have hquiet : d.Quiet := by
        rw [hnames.eq_between]
        exact .inr (Document.isDocumentElement_root hplaced)
      exact absurd hquiet (Finding.ofDifference?_eq_some_iff.mp hfound).1
    · exact .inl hattribute
  · exact .inr hnone

/-- The names of the roots, of which the abbreviation stands for something else on either side. -/
def namesakeRoots : Difference := ⟨.elementName, "p:r", "p:r", ⟨[⟨"r", 1⟩]⟩, "#document", "p:r"⟩

/-- The value of an attribute without the blank in front of it. -/
def spacedValue : Difference := ⟨.attributeValue, "1", "1", ⟨[⟨"r", 1⟩, ⟨"i", 1⟩]⟩, "i", "x"⟩

/-- Roots of one name in two namespaces, with values that differ in a blank, show two
differences. -/
theorem different_of_namesakes : compareTexts Selector.standard
    "<p:r xmlns:p='a'><i x=' 1'/></p:r>" "<p:r xmlns:p='b'><i x='1'/></p:r>" =
      .different [namesakeRoots, spacedValue] := by
  decide +kernel

/-- Both differences show the same on both sides, and one of them becomes a finding. -/
theorem namesakes_shown_alike :
    compareTexts Selector.standard "<p:r xmlns:p='a'><i x=' 1'/></p:r>"
        "<p:r xmlns:p='b'><i x='1'/></p:r>" = .different [namesakeRoots, spacedValue] ∧
    (∀ d ∈ [namesakeRoots, spacedValue], d.control = d.test) ∧
    verify "<p:r xmlns:p='a'><i x=' 1'/></p:r>" "<p:r xmlns:p='b'><i x='1'/></p:r>" =
      .invalid [⟨1, 1, "1", Finding.detailsOf spacedValue⟩] ∧
    ∃ c t, Document.parse "<p:r xmlns:p='a'><i x=' 1'/></p:r>" = .ok c ∧
      Document.parse "<p:r xmlns:p='b'><i x='1'/></p:r>" = .ok t ∧
      (∀ d ∈ [namesakeRoots, spacedValue], d.control = d.test ↔
        NamesShownAlike Element.documentTag c.root t.root d ∨
          ∃ tag a b, Compared Selector.standard Element.documentTag c.root t.root tag a b ∧
            ValuesShownAlike a b d) ∧
      ∃ index, PositionIndex.build "<p:r xmlns:p='a'><i x=' 1'/></p:r>" = .ok index ∧
        ∀ f ∈ (verify "<p:r xmlns:p='a'><i x=' 1'/></p:r>"
            "<p:r xmlns:p='b'><i x='1'/></p:r>").findings,
          ∃ d ∈ [namesakeRoots, spacedValue], Finding.ofDifference? index d = some f ∧
          (showValue d.control = showValue d.test →
            (∃ tag a b, Compared Selector.standard Element.documentTag c.root t.root tag a b ∧
              ValuesShownAlike a b d) ∨
            d.control = none ∧ d.test = some "null" ∨
            d.control = some "null" ∧ d.test = none) := by
  have hverdict : verify "<p:r xmlns:p='a'><i x=' 1'/></p:r>"
      "<p:r xmlns:p='b'><i x='1'/></p:r>" =
        .invalid [⟨1, 1, "1", Finding.detailsOf spacedValue⟩] := by
    decide +kernel
  exact ⟨different_of_namesakes, by decide, hverdict,
    sides_shown_alike _ _ _ different_of_namesakes⟩

/-- It is not so that every difference shows two values. -/
theorem not_all_sides_differ : ¬ ∀ (control test : String) (differences : List Difference),
    compareTexts Selector.standard control test = .different differences →
      ∀ d ∈ differences, d.control ≠ d.test :=
  fun h => h _ _ _ different_of_namesakes namesakeRoots List.mem_cons_self rfl

end XmlCompare
