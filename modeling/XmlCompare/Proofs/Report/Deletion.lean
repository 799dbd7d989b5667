import XmlCompare.Proofs.Compare.Deletion
import XmlCompare.Proofs.Report.Projection

/-!
# The finding on a deletion

An element that was removed is found where it stood: one finding covers its lines in the control
text, and nothing else is found, wherever in the document it was and whatever was next to it.
-/

set_option autoImplicit false

namespace XmlCompare

variable {c : Document} {p x : Element}

/-- Of what differs after a removal only the missing child is a finding, on the child's lines. -/
theorem Finding.project_removalDifferences {index : PositionIndex} (hplaced : c.Placed)
    (hperm : index.entries.entries.Perm (c.root.all.map Element.entry))
    (hp : p ∈ c.root.all) (hx : x ∈ p.childElements) (tag : String) :
    project index (Element.removalDifferences tag p x) =
      [⟨x.lines.first, x.lines.last, "null", detailsOf (.missingChild p.name x)⟩] := by
  have hlines : index.get? (Difference.missingChild p.name x).path = some x.lines :=
    PositionIndex.get?_of_perm hperm (Element.mem_all_trans hp (Element.child_mem_all hx))
  have hloud : ¬ (Difference.missingChild p.name x).Quiet := by
    rintro (hkind | hroot)
    · cases hkind
    · have hinner : (Difference.missingChild p.name x).path.isDocumentElement = false :=
        Document.isDocumentElement_of_child hplaced hp hx
      rw [hinner] at hroot
      cases hroot
  rw [project, Element.removalDifferences,
    List.filterMap_cons_none (ofDifference?_of_quiet (.inl rfl)),
    List.filterMap_cons_some (ofDifference?_of_not_quiet hlines hloud)]
  rfl

/-- If the name and text of an element are those of none of its siblings, and a test document agrees
position by position with the control document without the element, then the comparison finds that
the parent of the element has one child less and that the element is missing, and the verdict is
one finding, on the lines of the element. -/
theorem verify_of_removed (control test : String) (c t : Document) (p x : Element)
    (hcontrol : Document.parse control = .ok c) (htest : Document.parse test = .ok t)
    (hp : p ∈ c.elements) (hx : x ∈ p.childElements)
    (hunlike : ∀ s ∈ p.childElements, s ≠ x →
      ¬ (s.expanded = x.expanded ∧ s.textContent = x.textContent))
    (h : (c.root.without x.path).Agree t.root) :
    (∃ tag, c.root.TagAround Element.documentTag p tag ∧
      compareTexts Selector.standard control test =
        .different (Element.removalDifferences tag p x)) ∧
    verify control test = .invalid [⟨x.lines.first, x.lines.last, "null",
      Finding.detailsOf (.missingChild p.name x)⟩] := by
  obtain ⟨hplaced, -, index, hbuild, hperm⟩ := Document.index_of_parse hcontrol
  rw [Document.elements_eq] at hp
  obtain ⟨tag, haround, hroots⟩ := Element.differences_of_without hplaced.inner hp hx hunlike h
    Element.documentTag
  have hdifferences : c.differences Selector.standard t = Element.removalDifferences tag p x :=
    hroots
  constructor
  · refine ⟨tag, haround, ?_⟩
    rw [compareTexts_of_parse hcontrol htest, hdifferences]
    exact if_neg (List.cons_ne_nil _ _)
  · have hfound := Finding.project_removalDifferences hplaced hperm hp hx tag
    rw [verify_of_build hcontrol htest hbuild, hdifferences, hfound]
    exact if_neg (List.cons_ne_nil _ _)

/-- An item on some lines of a list, without content. -/
def plainItem (name : String) (ordinal first last : Nat) : Element :=
  .mk ⟨name, .bare name, ⟨[⟨"r", 1⟩, ⟨name, ordinal⟩]⟩, .between first last, .empty, .empty⟩ []

/-- A list of items that ends on some line. -/
def plainList (last : Nat) (items : List Element) : Element :=
  .mk ⟨"r", .bare "r", ⟨[⟨"r", 1⟩]⟩, .between 1 last, .empty, .empty⟩ (items.map Node.element)

/-- Two items that are the same, with one on two lines between them. -/
def threeItems : Element :=
  plainList 3 [plainItem "i" 1 1 1, plainItem "j" 1 2 3, plainItem "i" 2 3 3]

/-- The items without the one between them. -/
def twoItems : Element := plainList 1 [plainItem "i" 1 1 1, plainItem "i" 2 1 1]

/-- The item between two that are the same was removed. -/
theorem verify_of_removed_item :
    Document.parse "<r><i/>\n<j>\n</j><i/></r>" = .ok ⟨[], threeItems, []⟩ ∧
    Document.parse "<r><i/><i/></r>" = .ok ⟨[], twoItems, []⟩ ∧
    threeItems ∈ (Document.mk [] threeItems []).elements ∧
    plainItem "j" 1 2 3 ∈ threeItems.childElements ∧
    (∀ s ∈ threeItems.childElements, s ≠ plainItem "j" 1 2 3 →
      ¬ (s.expanded = (plainItem "j" 1 2 3).expanded ∧
        s.textContent = (plainItem "j" 1 2 3).textContent)) ∧
    (threeItems.without (plainItem "j" 1 2 3).path).Agree twoItems ∧
    (∃ tag, threeItems.TagAround Element.documentTag threeItems tag ∧
      compareTexts Selector.standard "<r><i/>\n<j>\n</j><i/></r>" "<r><i/><i/></r>" =
        .different (Element.removalDifferences tag threeItems (plainItem "j" 1 2 3))) ∧
    verify "<r><i/>\n<j>\n</j><i/></r>" "<r><i/><i/></r>" =
      .invalid [⟨2, 3, "null", Finding.detailsOf (.missingChild "r" (plainItem "j" 1 2 3))⟩] := by
  have hcontrol : Document.parse "<r><i/>\n<j>\n</j><i/></r>" = .ok ⟨[], threeItems, []⟩ := by
    decide
  have htest : Document.parse "<r><i/><i/></r>" = .ok ⟨[], twoItems, []⟩ := by decide
  have hroot : threeItems ∈ (Document.mk [] threeItems []).elements := by
    rw [Document.elements_eq]
    exact Element.self_mem_all threeItems
  have hchildren : threeItems.childElements =
      [plainItem "i" 1 1 1, plainItem "j" 1 2 3, plainItem "i" 2 3 3] := rfl
  have hremoved : plainItem "j" 1 2 3 ∈ threeItems.childElements := by simp [hchildren]
  have hunlike : ∀ s ∈ threeItems.childElements, s ≠ plainItem "j" 1 2 3 →
      ¬ (s.expanded = (plainItem "j" 1 2 3).expanded ∧
        s.textContent = (plainItem "j" 1 2 3).textContent) := by
    rintro s hs hne ⟨hexpanded, -⟩
    rw [hchildren] at hs
    rcases List.mem_cons.mp hs with rfl | hs
    · exact absurd hexpanded (by decide)
    · rcases List.mem_cons.mp hs with rfl | hs
      · exact hne rfl
      · obtain rfl := List.mem_singleton.mp hs
        exact absurd hexpanded (by decide)
  have hagree : (threeItems.without (plainItem "j" 1 2 3).path).Agree twoItems := by
    have hwithout : threeItems.without (plainItem "j" 1 2 3).path =
        plainList 3 [plainItem "i" 1 1 1, plainItem "i" 2 3 3] := by decide
    have hitem : ∀ ordinal first last ordinal' first' last',
        (plainItem "i" ordinal first last).Agree (plainItem "i" ordinal' first' last') :=
      fun _ _ _ _ _ _ => .intro ⟨rfl, fun _ => rfl, rfl⟩ .nil
    rw [hwithout]
    exact .intro ⟨rfl, fun _ => rfl, rfl⟩ (.cons (hitem ..) (.cons (hitem ..) .nil))
  obtain ⟨hsame, hverdict⟩ :=
    verify_of_removed _ _ _ _ _ _ hcontrol htest hroot hremoved hunlike hagree
  exact ⟨hcontrol, htest, hroot, hremoved, hunlike, hagree, hsame, hverdict⟩

end XmlCompare
