import XmlCompare.Proofs.Compare.Addresses
import XmlCompare.Proofs.Compare.Locality
import XmlCompare.Proofs.Compare.Priority
import XmlCompare.Proofs.Text.Words

/-!
# The values of a difference

A difference shows what each side has, but what is compared is not always what is shown. Names are
compared expanded and shown as they are written; the value of an attribute is compared as it is and
shown without the blanks around it. So both sides of such a difference can show the same. For no
other difference they can: texts and numbers are shown as they are compared, and of what is missing
or extra only one side has a value.
-/

set_option autoImplicit false

namespace XmlCompare

/-- What shows alike is the same, or it is absent on one side and the word that stands for this on
the other. -/
theorem showValue_eq_iff {u v : Option String} : showValue u = showValue v ↔
    u = v ∨ u = none ∧ v = some "null" ∨ u = some "null" ∧ v = none := by
  cases u <;> cases v <;> simp [showValue, eq_comm]

/-- The standard selectors accept only elements with the same name. -/
theorem Selector.expanded_eq_of_standard {accepts : Selector} (hmem : accepts ∈ standard)
    {a b : Element} (h : accepts a b = true) : a.expanded = b.expanded := by
  simp only [standard, List.mem_cons, List.not_mem_nil, or_false] at hmem
  rcases hmem with rfl | rfl
  · exact (byNameAndText_iff.mp h).1
  · exact of_decide_eq_true h

namespace Element

variable {selectors : List Selector} {outer tag : String} {control test a b : Element}
  {d : Difference}

/-- The text of an element is trimmed. -/
theorem trimmed_textContent (e : Element) : e.textContent.map Text.trimmed = e.textContent := by
  cases htext : e.textContent with
  | none => rfl
  | some content => exact congrArg some (Text.trimmed_normalized htext)

/-- The names of two elements stand for different names, but the difference shows the same name. -/
structure NamesShownAlike (tag : String) (a b : Element) (d : Difference) : Prop where
  expanded : a.expanded ≠ b.expanded
  shown : Text.trimmed a.name = Text.trimmed b.name
  eq_between : d = .between .elementName a.name b.name a.path tag a.name

/-- Two elements have an attribute with values that differ in the blanks around them only. -/
inductive ValuesShownAlike (a b : Element) : Difference → Prop
  | intro {name : ExpandedName} {u v : Attribute} : a.attributes.get? name = some u →
    b.attributes.get? name = some v → u.value ≠ v.value →
    Text.trimmed u.value = Text.trimmed v.value →
    ValuesShownAlike a b (.between .attributeValue u.value v.value a.path a.name u.name)

/-- Names that are shown alike are shown as the same value. -/
theorem NamesShownAlike.control_eq_test (h : NamesShownAlike tag a b d) : d.control = d.test := by
  rw [h.eq_between]
  exact congrArg some h.shown

/-- Values that are shown alike are shown as the same value. -/
theorem ValuesShownAlike.control_eq_test (h : ValuesShownAlike a b d) : d.control = d.test := by
  obtain ⟨-, -, -, hshown⟩ := h
  exact congrArg some hshown

/-- What differs about two elements themselves shows the same on both sides in two cases only. -/
theorem shownAlike_of_mem_ownDifferences (h : d ∈ ownDifferences tag a b)
    (hsame : d.control = d.test) : NamesShownAlike tag a b d ∨ ValuesShownAlike a b d := by
  rcases mem_ownDifferences.mp h with h | h | h | h
  · obtain ⟨hexpanded, rfl⟩ := mem_nameDifferences.mp h
    exact .inl ⟨hexpanded, Option.some.inj hsame, rfl⟩
  · rcases mem_attributeDifferences.mp h with
      ⟨name, u, v, hu, hv, hvalue, rfl⟩ | ⟨name, u, -, -, rfl⟩ | ⟨name, v, -, -, rfl⟩
    · exact .inr ⟨hu, hv, hvalue.symm, Option.some.inj hsame⟩
    · cases hsame
    · cases hsame
  · obtain ⟨htext, rfl⟩ := mem_textDifferences.mp h
    refine absurd ?_ htext
    rw [← trimmed_textContent a, ← trimmed_textContent b]
    exact hsame
  · obtain ⟨hcount, rfl⟩ := mem_countDifferences.mp h
    refine absurd (Text.toString_injective ?_) hcount
    rw [← Text.trimmed_toString a.childElements.length,
      ← Text.trimmed_toString b.childElements.length]
    exact Option.some.inj hsame

/-- The differences of two elements that show the same on both sides are those of compared pairs
with names or attribute values that show alike. -/
theorem control_eq_test_iff (h : d ∈ control.differences selectors outer test) :
    d.control = d.test ↔ ∃ tag a b, Compared selectors outer control test tag a b ∧
      (NamesShownAlike tag a b d ∨ ValuesShownAlike a b d) := by
  constructor
  · intro hsame
    obtain ⟨tag, a, b, _, hcompared, haddressed⟩ := exists_addressed h
    cases haddressed with
    | own hown => exact ⟨tag, a, b, hcompared, shownAlike_of_mem_ownDifferences hown hsame⟩
    | missing => cases hsame
    | extra => cases hsame
  · rintro ⟨tag, a, b, -, hnames | hvalues⟩
    · exact hnames.control_eq_test
    · exact hvalues.control_eq_test

/-- With the standard selectors only elements of the same name are compared below the roots. -/
theorem Compared.expanded_of_standard (h : Compared Selector.standard outer control test tag a b) :
    tag = outer ∧ a = control ∧ b = test ∨ a.expanded = b.expanded := by
  cases h with
  | self => exact .inl ⟨rfl, rfl, rfl⟩
  | child _ hpartner hi hj =>
    obtain ⟨accepts, hmem, child, partner, hchild, hpartner, haccepts⟩ :=
      Matching.exists_accepted hpartner
    obtain rfl := Option.some.inj (hi.symm.trans hchild)
    obtain rfl := Option.some.inj (hj.symm.trans hpartner)
    exact .inr (Selector.expanded_eq_of_standard hmem haccepts)

/-- With the standard selectors names that show alike are those of the roots. -/
theorem control_eq_test_iff_of_standard
    (h : d ∈ control.differences Selector.standard outer test) :
    d.control = d.test ↔ NamesShownAlike outer control test d ∨
      ∃ tag a b, Compared Selector.standard outer control test tag a b ∧
        ValuesShownAlike a b d := by
  rw [control_eq_test_iff h]
  constructor
  · rintro ⟨tag, a, b, hcompared, hnames | hvalues⟩
    · rcases hcompared.expanded_of_standard with ⟨rfl, rfl, rfl⟩ | hexpanded
      · exact .inl hnames
      · exact absurd hexpanded hnames.expanded
    · exact .inr ⟨tag, a, b, hcompared, hvalues⟩
  · rintro (hnames | ⟨tag, a, b, hcompared, hvalues⟩)
    · exact ⟨outer, control, test, .self, .inl hnames⟩
    · exact ⟨tag, a, b, hcompared, .inr hvalues⟩

end Element

end XmlCompare
