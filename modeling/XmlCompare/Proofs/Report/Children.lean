import XmlCompare.Proofs.Compare.Counting
import XmlCompare.Proofs.Report.Addresses

/-!
# What is said about children

A child that is missing is reported once and as a whole: what was inside it is not reported again. A
number of children need not be reported at all, since as many children as make the numbers differ
are reported as missing or as extra.
-/

set_option autoImplicit false

namespace XmlCompare

/-- Whatever the selectors are, a difference about a missing child is about one child of one control
element, and no other difference of the list is addressed at that child or at what is inside it. -/
theorem missing_child_stands_alone (selectors : List Selector) (control test : String)
    (c t : Document) (hcontrol : Document.parse control = .ok c)
    (htest : Document.parse test = .ok t) (before after : List Difference) (d : Difference)
    (hlist : (compareTexts selectors control test).differences = before ++ d :: after)
    (hmissing : d.IsMissing) :
    (∃ p ∈ c.elements, ∃ x ∈ p.childElements, d = .missingChild p.name x) ∧
      ∀ d' ∈ before ++ after, ¬ d.path.steps <+: d'.path.steps := by
  obtain ⟨hplaced, -⟩ := Document.index_of_parse hcontrol
  rw [differences_compareTexts hcontrol htest] at hlist
  constructor
  · have hd : d ∈ c.differences selectors t := by simp [hlist]
    obtain ⟨tag, a, b, x, hcompared, haddressed⟩ := Element.exists_addressed hd
    cases haddressed with
    | own hown => exact absurd hmissing (Element.not_isMissing_of_mem_ownDifferences hown)
    | missing hchild _ =>
      rw [Document.elements_eq]
      exact ⟨a, hcompared.mem_all.1, x, List.mem_of_getElem? hchild, rfl⟩
    | extra => exact absurd rfl hmissing.2
  · have hapart : (c.differences selectors t).Pairwise Difference.Apart :=
      Element.pairwise_apart hplaced.inner
    rw [hlist, List.pairwise_append, List.pairwise_cons] at hapart
    obtain ⟨-, ⟨hafter, -⟩, hbefore⟩ := hapart
    intro d' hd' hinside
    rcases List.mem_append.mp hd' with hd' | hd'
    · exact (hbefore d' hd' d List.mem_cons_self).2 ⟨hmissing, hinside⟩
    · exact (hafter d' hd').1 ⟨hmissing, hinside⟩

/-- An item below some steps, with items inside. -/
def branch (steps : List Step) (name : String) (line : Nat) (items : List Element) : Element :=
  .mk ⟨name, .bare name, ⟨steps ++ [⟨name, 1⟩]⟩, .single line, .empty, .empty⟩
    (items.map Node.element)

/-- An item with another one inside. -/
def nestedItem : Element := branch [⟨"r", 1⟩] "a" 1 [branch [⟨"r", 1⟩, ⟨"a", 1⟩] "b" 1 []]

/-- A list of that item and an empty one. -/
def nestedItems : Element := plainList 2 [nestedItem, plainItem "c" 1 2 2]

/-- A list without that item, but with two items inside the other one. -/
def grownItems : Element :=
  plainList 1 [branch [⟨"r", 1⟩] "c" 1
    [branch [⟨"r", 1⟩, ⟨"c", 1⟩] "x" 1 [], branch [⟨"r", 1⟩, ⟨"c", 1⟩] "y" 1 []]]

/-- The list has one item instead of two. -/
def listCount : Difference := ⟨.childCount, "2", "1", ⟨[⟨"r", 1⟩]⟩, "#document", "r"⟩

/-- The item that was empty has two items. -/
def itemCount : Difference := ⟨.childCount, "0", "2", ⟨[⟨"r", 1⟩, ⟨"c", 1⟩]⟩, "r", "c"⟩

/-- The nested item is missing, and the items inside the other one are extra. -/
theorem differences_of_grownItems :
    Document.parse "<r><a><b/></a>\n<c/></r>" = .ok ⟨[], nestedItems, []⟩ ∧
    Document.parse "<r><c><x/><y/></c></r>" = .ok ⟨[], grownItems, []⟩ ∧
    (compareTexts Selector.standard "<r><a><b/></a>\n<c/></r>"
        "<r><c><x/><y/></c></r>").differences =
      [listCount] ++ .missingChild "r" nestedItem ::
        [itemCount, ⟨.childLookup, none, "x", itemCount.path, "c", "x"⟩,
          ⟨.childLookup, none, "y", itemCount.path, "c", "y"⟩] := by
  have hcontrol : Document.parse "<r><a><b/></a>\n<c/></r>" = .ok ⟨[], nestedItems, []⟩ := by
    decide
  have htest : Document.parse "<r><c><x/><y/></c></r>" = .ok ⟨[], grownItems, []⟩ := by
    decide
  refine ⟨hcontrol, htest, ?_⟩
  rw [differences_compareTexts hcontrol htest]
  decide

/-- Of the missing item only its own difference is told, not that the item inside is gone too. -/
theorem nested_item_stands_alone :
    Document.parse "<r><a><b/></a>\n<c/></r>" = .ok ⟨[], nestedItems, []⟩ ∧
    Document.parse "<r><c><x/><y/></c></r>" = .ok ⟨[], grownItems, []⟩ ∧
    (Difference.missingChild "r" nestedItem).IsMissing ∧
    ∃ before after, (compareTexts Selector.standard "<r><a><b/></a>\n<c/></r>"
        "<r><c><x/><y/></c></r>").differences =
          before ++ .missingChild "r" nestedItem :: after ∧
      (∃ p ∈ (Document.mk [] nestedItems []).elements, ∃ x ∈ p.childElements,
        Difference.missingChild "r" nestedItem = .missingChild p.name x) ∧
      ∀ d' ∈ before ++ after, ¬ nestedItem.path.steps <+: d'.path.steps := by
  obtain ⟨hcontrol, htest, hlist⟩ := differences_of_grownItems
  have hmissing : (Difference.missingChild "r" nestedItem).IsMissing := by decide
  exact ⟨hcontrol, htest, hmissing, _, _, hlist,
    missing_child_stands_alone Selector.standard _ _ _ _ hcontrol htest _ _ _ hlist hmissing⟩

/-- Whatever the selectors are, a difference in the number of children is about a pair of elements
and shows the numbers of their child elements. If the control element has more of them, at least as
many differences as it has more are about missing children of this element; if the test element
has, at least as many are about extra children, addressed at the control element or at a child of
it, with its name as the name of what is around them. -/
theorem childCount_is_accounted_for (selectors : List Selector) (control test : String)
    (c t : Document) (hcontrol : Document.parse control = .ok c)
    (htest : Document.parse test = .ok t) (d : Difference)
    (hd : d ∈ (compareTexts selectors control test).differences) (hkind : d.kind = .childCount) :
    ∃ x ∈ c.elements, ∃ y ∈ t.elements, d.path = x.path ∧
      d.control = some (toString x.childElements.length) ∧
      d.test = some (toString y.childElements.length) ∧
      x.childElements.length - y.childElements.length ≤
        (compareTexts selectors control test).differences.countP (·.MissingIn d.path) ∧
      y.childElements.length - x.childElements.length ≤
        (compareTexts selectors control test).differences.countP (·.ExtraIn d.path x.name) := by
  obtain ⟨hplaced, -⟩ := Document.index_of_parse hcontrol
  rw [differences_compareTexts hcontrol htest] at hd ⊢
  rw [Document.elements_eq, Document.elements_eq]
  obtain ⟨tag, x, y, _, hcompared, haddressed⟩ := Element.exists_addressed hd
  cases haddressed with
  | own hown =>
    obtain ⟨hcontrolCount, htestCount⟩ := Element.values_of_mem_countDifferences
      (Element.mem_countDifferences_of_kind hown hkind)
    have hpath := Element.path_of_mem_ownDifferences hown
    have hbound := hcompared.sub_le_countP hplaced.inner
    rw [← hpath] at hbound
    exact ⟨x, hcompared.mem_all.1, y, hcompared.mem_all.2, hpath, hcontrolCount, htestCount, hbound⟩
  | missing => cases hkind
  | extra => cases hkind

/-- The list has lost an item and the item has got two, and each is told. -/
theorem counts_of_nestedItems :
    Document.parse "<r><a><b/></a>\n<c/></r>" = .ok ⟨[], nestedItems, []⟩ ∧
    Document.parse "<r><c><x/><y/></c></r>" = .ok ⟨[], grownItems, []⟩ ∧
    ∀ d ∈ [listCount, itemCount],
      (d ∈ (compareTexts Selector.standard "<r><a><b/></a>\n<c/></r>"
        "<r><c><x/><y/></c></r>").differences ∧ d.kind = .childCount) ∧
      ∃ x ∈ (Document.mk [] nestedItems []).elements, ∃ y ∈ (Document.mk [] grownItems []).elements,
        d.path = x.path ∧ d.control = some (toString x.childElements.length) ∧
        d.test = some (toString y.childElements.length) ∧
        x.childElements.length - y.childElements.length ≤
          (compareTexts Selector.standard "<r><a><b/></a>\n<c/></r>"
            "<r><c><x/><y/></c></r>").differences.countP (·.MissingIn d.path) ∧
        y.childElements.length - x.childElements.length ≤
          (compareTexts Selector.standard "<r><a><b/></a>\n<c/></r>"
            "<r><c><x/><y/></c></r>").differences.countP (·.ExtraIn d.path x.name) := by
  obtain ⟨hcontrol, htest, hlist⟩ := differences_of_grownItems
  refine ⟨hcontrol, htest, fun d hd => ?_⟩
  have hmem : d ∈ (compareTexts Selector.standard "<r><a><b/></a>\n<c/></r>"
      "<r><c><x/><y/></c></r>").differences := by
    rw [hlist]
    rcases List.mem_pair.mp hd with rfl | rfl <;> simp
  have hkind : d.kind = .childCount := by rcases List.mem_pair.mp hd with rfl | rfl <;> rfl
  exact ⟨⟨hmem, hkind⟩, childCount_is_accounted_for Selector.standard _ _ _ _ hcontrol htest d hmem
    hkind⟩

end XmlCompare
