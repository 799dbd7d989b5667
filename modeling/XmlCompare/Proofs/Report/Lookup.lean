import XmlCompare.Proofs.Report.Deletion
import XmlCompare.Proofs.Report.Validity

/-!
# Missing and extra children in a verdict

If a child is missing or extra, however deep, the verdict is invalid: a missing child is addressed
at itself, and an extra child next to a sibling or at its parent. The one exception is a control
root without children. An extra child of it has no sibling to stand next to, so it is addressed at
the document element, where the verdict passes over it together with the number of children.
-/

set_option autoImplicit false

namespace XmlCompare

variable {selectors : List Selector} {c t : Document} {d : Difference}

namespace Document

/-- Below a root that has children, quiet differences are about no missing or extra child. -/
theorem kind_of_quiet (hplaced : c.Placed) (hquiet : ∀ d ∈ c.differences selectors t, d.Quiet)
    (hchildren : c.root.childElements ≠ []) (hd : d ∈ c.differences selectors t) :
    d.kind ≠ .childLookup := by
  rcases Element.mem_differences.mp hd with hown | ⟨pair, hpair, hinside⟩ | hextra
  · exact Element.kind_of_mem_ownDifferences hown
  · intro hlookup
    cases hlookup.symm.trans (kind_of_quiet_pair hplaced hquiet hpair d hinside)
  · obtain ⟨position, hposition, -⟩ := Element.mem_extraDifferences.mp hextra
    rw [unmatchedTest_of_quiet hplaced hquiet hchildren] at hposition
    cases hposition

/-- Where the root has no children, all there is to differ stands at the document element. -/
theorem quiet_of_no_children (hplaced : c.Placed) (hchildren : c.root.childElements = [])
    (hd : d ∈ c.differences selectors t) : d.Quiet := by
  obtain ⟨x, hx, hpath⟩ := Element.path_of_mem_differences hd
  rcases Element.mem_all_iff.mp hx with rfl | ⟨child, hchild, -⟩
  · exact .inr (by rw [hpath, isDocumentElement_root hplaced])
  · rw [hchildren] at hchild
    cases hchild

end Document

/-- If a child is missing or extra somewhere in two documents, the verdict is invalid exactly when
the control root has child elements. -/
theorem invalid_iff_of_childLookup (control test : String) (c t : Document)
    (differences : List Difference) (hcontrol : Document.parse control = .ok c)
    (htest : Document.parse test = .ok t)
    (hdifferent : compareTexts Selector.standard control test = .different differences)
    (hlookup : ∃ d ∈ differences, d.kind = .childLookup) :
    (∃ findings, verify control test = .invalid findings) ↔ c.root.childElements ≠ [] := by
  obtain ⟨hplaced, -, index, hbuild, hperm⟩ := Document.index_of_parse hcontrol
  obtain rfl : c.differences Selector.standard t = differences := by
    rw [compareTexts_of_parse hcontrol htest] at hdifferent
    split at hdifferent
    · cases hdifferent
    · exact Outcome.different.inj hdifferent
  have hfound : Finding.project index (c.differences Selector.standard t) = [] ↔
      ∀ d ∈ c.differences Selector.standard t, d.Quiet :=
    Finding.project_eq_nil_iff fun d => isSome_get?_of_mem_differences hperm
  rw [verify_of_build hcontrol htest hbuild]
  constructor
  · rintro ⟨findings, hinvalid⟩ hchildren
    rw [if_pos (hfound.mpr fun d => Document.quiet_of_no_children hplaced hchildren)] at hinvalid
    cases hinvalid
  · intro hchildren
    have hsome : Finding.project index (c.differences Selector.standard t) ≠ [] := by
      intro hnil
      obtain ⟨d, hd, hkind⟩ := hlookup
      exact Document.kind_of_quiet hplaced (hfound.mp hnil) hchildren hd hkind
    exact ⟨_, if_neg hsome⟩

/-- A list of one item. -/
def singleItem (name : String) : Element := plainList 1 [plainItem name 1 1 1]

/-- The only child is another one: both are found, and what makes the verdict invalid is the
missing one alone, since nothing is left for the extra one to stand next to. -/
theorem invalid_of_other_child :
    Document.parse "<r><i/></r>" = .ok ⟨[], singleItem "i", []⟩ ∧
    Document.parse "<r><j/></r>" = .ok ⟨[], singleItem "j", []⟩ ∧
    compareTexts Selector.standard "<r><i/></r>" "<r><j/></r>" =
      .different [.missingChild "r" (plainItem "i" 1 1 1),
        .extraChild "r" ⟨[⟨"r", 1⟩]⟩ (plainItem "j" 1 1 1)] ∧
    (∃ findings, verify "<r><i/></r>" "<r><j/></r>" = .invalid findings) := by
  have hcontrol : Document.parse "<r><i/></r>" = .ok ⟨[], singleItem "i", []⟩ := by decide
  have htest : Document.parse "<r><j/></r>" = .ok ⟨[], singleItem "j", []⟩ := by decide
  have hdifferent : compareTexts Selector.standard "<r><i/></r>" "<r><j/></r>" =
      .different [.missingChild "r" (plainItem "i" 1 1 1),
        .extraChild "r" ⟨[⟨"r", 1⟩]⟩ (plainItem "j" 1 1 1)] := by
    rw [compareTexts_of_parse hcontrol htest]
    decide
  have hchildren : (singleItem "i").childElements ≠ [] := List.cons_ne_nil _ _
  exact ⟨hcontrol, htest, hdifferent, (invalid_iff_of_childLookup _ _ _ _ _ hcontrol htest
    hdifferent ⟨_, List.mem_cons_self, rfl⟩).mpr hchildren⟩

/-- A child that is extra in a root without children goes unreported. -/
theorem valid_of_child_of_empty_root : ¬ ∀ (control test : String) (c t : Document)
    (differences : List Difference), Document.parse control = .ok c →
      Document.parse test = .ok t →
      compareTexts Selector.standard control test = .different differences →
      (∃ d ∈ differences, d.kind = .childLookup) →
        ∃ findings, verify control test = .invalid findings := by
  intro h
  have hcontrol : Document.parse "<r/>" = .ok ⟨[], plainList 1 [], []⟩ := by decide
  have htest : Document.parse "<r><i/></r>" = .ok ⟨[], singleItem "i", []⟩ := by decide
  have hdifferent : compareTexts Selector.standard "<r/>" "<r><i/></r>" =
      .different [⟨.childCount, some "0", some "1", ⟨[⟨"r", 1⟩]⟩, "#document", "r"⟩,
        .extraChild "r" ⟨[⟨"r", 1⟩]⟩ (plainItem "i" 1 1 1)] := by
    rw [compareTexts_of_parse hcontrol htest]
    decide
  have hvalid : verify "<r/>" "<r><i/></r>" = .valid := by decide +kernel
  obtain ⟨findings, hinvalid⟩ := h _ _ _ _ _ hcontrol htest hdifferent
    ⟨_, List.mem_cons_of_mem _ List.mem_cons_self, rfl⟩
  cases hvalid.symm.trans hinvalid

end XmlCompare
