import XmlCompare.Proofs.Compare.Locality
import XmlCompare.Proofs.Report.Projection

/-!
# Documents that differ in attributes

Documents with the same names and texts position by position differ exactly in what has changed in
their attributes, however many elements that concerns: the changes of one pair of elements after
those of another, in document order. What abbreviations the names are written with, where
declarations and comments stand and how the text is laid out does not come into it.
-/

set_option autoImplicit false

namespace XmlCompare

/-- What has changed in the attributes of the elements of two documents that have the same place. -/
def Document.attributeChanges (control test : Document) : List Difference :=
  (control.elements.zip test.elements).flatMap fun pair =>
    Element.attributeChanges pair.1 pair.2

/-- If two documents agree position by position in expanded names and texts, their differences are
the changes in attributes, each addressed at an element of the control document; and there are none
exactly if all attributes are the same. -/
theorem compareTexts_of_sameContent (control test : String) (c t : Document)
    (hcontrol : Document.parse control = .ok c) (htest : Document.parse test = .ok t)
    (h : c.root.InStep Element.SameContent t.root) :
    List.Forall₂ Element.SameContent c.elements t.elements ∧
    compareTexts Selector.standard control test =
      (if c.attributeChanges t = [] then .same else .different (c.attributeChanges t)) ∧
    (∀ pair ∈ c.elements.zip t.elements, ∀ d ∈ Element.attributeChanges pair.1 pair.2,
      d.path = pair.1.path) ∧
    (compareTexts Selector.standard control test = .same ↔
      ∀ pair ∈ c.elements.zip t.elements, pair.1.SameAttributes pair.2) := by
  have hdifferences : c.differences Selector.standard t = c.attributeChanges t := by
    rw [Document.attributeChanges, Document.elements_eq, Document.elements_eq]
    exact Element.differences_of_inStep (fun _ _ hab => hab)
      (fun _ _ hab => Selector.byNameAndText_iff.mpr ⟨hab.expanded, hab.text⟩) [Selector.byName] h
      Element.documentTag
  have houtcome : compareTexts Selector.standard control test =
      if c.attributeChanges t = [] then .same else .different (c.attributeChanges t) := by
    rw [compareTexts_of_parse hcontrol htest, hdifferences]
  have hnone : c.attributeChanges t = [] ↔
      ∀ pair ∈ c.elements.zip t.elements, pair.1.SameAttributes pair.2 := by
    rw [Document.attributeChanges, List.flatMap_eq_nil_iff]
    exact forall₂_congr fun _ _ => Element.attributeChanges_eq_nil_iff
  refine ⟨?_, houtcome, fun _ _ _ => Element.path_of_mem_attributeChanges, ?_⟩
  · rw [Document.elements_eq, Document.elements_eq]
    exact h.elements
  · rw [houtcome, ← hnone]
    by_cases hnil : c.attributeChanges t = []
    · simp [hnil]
    · simp [hnil]

/-- An attribute in no namespace. -/
def plainAttribute (name value : String) : ExpandedName × Attribute :=
  (.bare name, ⟨name, .bare name, value⟩)

/-- An element in a list on the first line, with attributes and without content. -/
def attributedItem (ordinal : Nat) (attributes : List (String × String)) : Element :=
  .mk ⟨"i", .bare "i", ⟨[⟨"r", 1⟩, ⟨"i", ordinal⟩]⟩, .between 1 1, .empty,
    .ofList (attributes.map fun a => plainAttribute a.1 a.2)⟩ []

/-- A list with attributes of its own. -/
def attributedList (attributes : List (String × String)) (children : List Node) : Element :=
  .mk ⟨"r", .bare "r", ⟨[⟨"r", 1⟩]⟩, .between 1 1, .empty,
    .ofList (attributes.map fun a => plainAttribute a.1 a.2)⟩ children

/-- Two items in a list, all with attributes. -/
def attributesBefore : Element :=
  attributedList [("a", "1"), ("b", "2")] [.element (attributedItem 1 [("c", "3")]),
    .element (attributedItem 2 [("d", "4"), ("e", "5")])]

/-- The list has another value, its first item another attribute, and its second item has the same
attributes the other way round. -/
def attributesAfter : Element :=
  attributedList [("b", "2"), ("a", "9")] [.element (attributedItem 1 [("f", "3")]), .comment "",
    .element (attributedItem 2 [("e", "5"), ("d", "4")])]

/-- Of attributes that have changed in two elements all changes are found, and those that have only
been put in another order are the same. -/
theorem compareTexts_of_changed_attributes :
    Document.parse "<r a='1' b='2'><i c='3'/><i d='4' e='5'/></r>" =
      .ok ⟨[], attributesBefore, []⟩ ∧
    Document.parse "<r b='2' a='9'><i f='3'/><!----><i e='5' d='4'/></r>" =
      .ok ⟨[], attributesAfter, []⟩ ∧
    attributesBefore.InStep Element.SameContent attributesAfter ∧
    compareTexts Selector.standard "<r a='1' b='2'><i c='3'/><i d='4' e='5'/></r>"
      "<r b='2' a='9'><i f='3'/><!----><i e='5' d='4'/></r>" =
        .different [⟨.attributeValue, some "1", some "9", ⟨[⟨"r", 1⟩]⟩, "r", "a"⟩,
          ⟨.attributeLookup, some "c", none, ⟨[⟨"r", 1⟩, ⟨"i", 1⟩]⟩, "i", "c"⟩,
          ⟨.attributeLookup, none, some "f", ⟨[⟨"r", 1⟩, ⟨"i", 1⟩]⟩, "i", "f"⟩] := by
  have hcontrol : Document.parse "<r a='1' b='2'><i c='3'/><i d='4' e='5'/></r>" =
      .ok ⟨[], attributesBefore, []⟩ := by decide
  have htest : Document.parse "<r b='2' a='9'><i f='3'/><!----><i e='5' d='4'/></r>" =
      .ok ⟨[], attributesAfter, []⟩ := by decide
  have hstep : attributesBefore.InStep Element.SameContent attributesAfter :=
    .intro ⟨rfl, rfl⟩ (.cons (.intro ⟨rfl, rfl⟩ .nil) (.cons (.intro ⟨rfl, rfl⟩ .nil) .nil))
  obtain ⟨-, houtcome, -⟩ := compareTexts_of_sameContent _ _ _ _ hcontrol htest hstep
  refine ⟨hcontrol, htest, hstep, houtcome.trans ?_⟩
  decide

end XmlCompare
