import XmlCompare.Proofs.Compare.Alignment
import XmlCompare.Proofs.Compare.InStep

/-!
# Trees that differ in attributes

Where two trees have the same names and texts position by position, and the first selector accepts
what has the same position, every element is compared with the element at its place. So the
attributes are all that differs, and the differences come pair by pair in document order.

`attributeChanges` says what the comparison of a pair comes to, entry by entry of the two
dictionaries. Nothing has changed exactly when the attributes are the same, in whatever order.
-/

set_option autoImplicit false

namespace XmlCompare

namespace Element

/-- Elements with the same expanded name and the same text. -/
structure SameContent (a b : Element) : Prop where
  expanded : a.expanded = b.expanded
  text : a.textContent = b.textContent

/-- What is to be said of an attribute that the control element has under `name`, if the test
element does not have it with the same value: it has another value there, or it is missing. -/
def attributeChange (control test : Element) (name : ExpandedName) (a : Attribute) : Difference :=
  match test.attributes.get? name with
  | some other =>
    ⟨.attributeValue, some (Text.trimmed a.value), some (Text.trimmed other.value), control.path,
      control.name, a.name⟩
  | none => ⟨.attributeLookup, some (Text.trimmed a.name), none, control.path, control.name, a.name⟩

/-- What is to be said of an attribute that only the test element has. -/
def attributeAddition (control : Element) (a : Attribute) : Difference :=
  ⟨.attributeLookup, none, some (Text.trimmed a.name), control.path, control.name, a.name⟩

/-- All that is to be said of the attributes of two elements: what has changed of those of the
control element, in its order, and then what the test element has added, in the order there. -/
def attributeChanges (control test : Element) : List Difference :=
  ((control.attributes.entries.filter fun (name, a) =>
      (test.attributes.get? name).map Attribute.value ≠ some a.value).map
    fun (name, a) => attributeChange control test name a) ++
  (test.attributes.entries.filter fun (name, _) => name ∉ control.attributes.keys).map
    fun (_, a) => attributeAddition control a

variable {control test : Element} {related : Element → Element → Prop}

/-- What is made of some members of a list is made of those that pass the test. -/
theorem filterMap_eq_map_filter {α β : Type} {f : α → Option β} {p : α → Bool} {g : α → β}
    (h : ∀ a, f a = if p a then some (g a) else none) (l : List α) :
    l.filterMap f = (l.filter p).map g := by
  rw [← List.filterMap_eq_map, ← List.filterMap_eq_filter, List.filterMap_filterMap]
  congr 1
  funext a
  by_cases hp : p a = true <;> simp [h, hp, Option.guard]

/-- The comparison of attributes finds what has changed. -/
theorem attributeDifferences_eq (control test : Element) :
    attributeDifferences control test = attributeChanges control test := by
  unfold attributeDifferences attributeChanges
  congr 1
  · apply filterMap_eq_map_filter
    rintro ⟨name, a⟩
    rcases Option.eq_none_or_eq_some (test.attributes.get? name) with hname | ⟨other, hname⟩
    · simp [attributeDifference?, attributeChange, hname, Difference.between]
    · by_cases hvalue : other.value = a.value <;>
        simp [attributeDifference?, attributeChange, hname, hvalue, Difference.between]
  · apply filterMap_eq_map_filter
    rintro ⟨name, a⟩
    have hkey := control.attributes.get?_eq_none_iff name
    rcases Option.eq_none_or_eq_some (control.attributes.get? name) with hname | ⟨other, hname⟩
    · simp [extraAttribute?, attributeAddition, hname, hkey.mp hname, Difference.between]
    · have hmem : name ∈ control.attributes.keys := by
        by_contra hnot
        rw [hkey.mpr hnot] at hname
        cases hname
      simp [extraAttribute?, hname, hmem]

/-- Nothing has changed exactly if the attributes are the same. -/
theorem attributeChanges_eq_nil_iff :
    attributeChanges control test = [] ↔ control.SameAttributes test := by
  rw [← attributeDifferences_eq, attributeDifferences_eq_nil_iff]

/-- All changes are addressed at the control element. -/
theorem path_of_mem_attributeChanges {d : Difference} (hd : d ∈ attributeChanges control test) :
    d.path = control.path := by
  rcases List.mem_append.mp hd with hd | hd
  · obtain ⟨⟨name, a⟩, -, rfl⟩ := List.mem_map.mp hd
    show (attributeChange control test name a).path = control.path
    unfold attributeChange
    cases test.attributes.get? name <;> rfl
  · obtain ⟨_, -, rfl⟩ := List.mem_map.mp hd
    rfl

/-- Between elements of the same content with as many children the attributes are all that can
differ. -/
theorem ownDifferences_of_sameContent (h : control.SameContent test)
    (hcount : control.childElements.length = test.childElements.length) (parent : String) :
    ownDifferences parent control test = attributeChanges control test := by
  rw [ownDifferences, nameDifferences_eq_nil_iff.mpr h.expanded,
    textDifferences_eq_nil_iff.mpr h.text, countDifferences_eq_nil_iff.mpr hcount,
    attributeDifferences_eq, List.nil_append, List.append_nil, List.append_nil]

/-- The differences of trees in step are the changes in attributes, pair by pair in document order,
if the elements that are in step have the same content and the first selector accepts them. -/
theorem differences_of_inStep {accepts : Selector}
    (hcontent : ∀ a b, related a b → a.SameContent b)
    (haccepts : ∀ a b, related a b → accepts a b = true) (selectors : List Selector)
    (h : InStep related control test) (parent : String) :
    control.differences (accepts :: selectors) parent test =
      (control.all.zip test.all).flatMap fun pair => attributeChanges pair.1 pair.2 := by
  induction control using descent generalizing parent test with
  | step control ih =>
    obtain ⟨hrelated, hchildren⟩ := inStep_iff.mp h
    have haccepted : List.Forall₂ (fun a b => accepts a b = true) control.childElements
        test.childElements := hchildren.imp fun a b hab => haccepts a b (inStep_iff.mp hab).1
    have hpairs : ∀ pair ∈ control.childElements.zip test.childElements,
        pair.1.differences (accepts :: selectors) control.name pair.2 =
          (pair.1.all.zip pair.2.all).flatMap fun pair => attributeChanges pair.1 pair.2 := by
      rintro ⟨a, b⟩ hpair
      exact ih a (List.of_mem_zip hpair).1 (List.forall₂_zip hchildren hpair) control.name
    rw [differences_of_accepted parent selectors haccepted,
      ownDifferences_of_sameContent (hcontent _ _ hrelated) hchildren.length_eq,
      List.flatMap_congr hpairs, h.zip_all, List.flatMap_cons, List.flatMap_assoc]

/-- Trees in step do not differ if the elements that are in step are alike and accepted. -/
theorem differences_of_alike {accepts : Selector} (halike : ∀ a b, related a b → a.Alike b)
    (haccepts : ∀ a b, related a b → accepts a b = true) (selectors : List Selector)
    (h : InStep related control test) (parent : String) :
    control.differences (accepts :: selectors) parent test = [] := by
  have hcontent : ∀ a b, related a b → a.SameContent b := fun a b hab =>
    ⟨(halike a b hab).expanded, (halike a b hab).text⟩
  rw [differences_of_inStep hcontent haccepts selectors h, List.flatMap_eq_nil_iff]
  rintro ⟨a, b⟩ hpair
  exact attributeChanges_eq_nil_iff.mpr (halike a b (List.forall₂_zip h.elements hpair)).attributes

end Element

end XmlCompare
