import XmlCompare.Compare.Comparison
import XmlCompare.Proofs.Compare.Likeness
import XmlCompare.Proofs.Compare.Pairing

/-!
# The parts of a comparison

The differences of two elements are their own, those of the pairs of children, and the extra
children. Each part is empty exactly when the elements are alike in its respect, and every
difference is addressed at an element of the control tree.
-/

set_option autoImplicit false

namespace XmlCompare.Element

variable {selectors : List Selector} {parent : String} {control test : Element} {d : Difference}

/-! ## What differs about the elements themselves -/

/-- The names do not differ exactly if the expanded names are the same. -/
theorem nameDifferences_eq_nil_iff :
    nameDifferences parent control test = [] ↔ control.expanded = test.expanded := by
  unfold nameDifferences
  split <;> simp_all

/-- The texts do not differ exactly if they are the same words. -/
theorem textDifferences_eq_nil_iff :
    textDifferences parent control test = [] ↔ control.textContent = test.textContent := by
  unfold textDifferences
  split <;> simp_all

/-- The counts do not differ exactly if there are as many children. -/
theorem countDifferences_eq_nil_iff : countDifferences parent control test = [] ↔
    control.childElements.length = test.childElements.length := by
  unfold countDifferences
  simp only
  split <;> simp_all

/-- Other numbers of children make one difference that shows both. -/
theorem countDifferences_of_ne
    (h : control.childElements.length ≠ test.childElements.length) :
    countDifferences parent control test =
      [.between .childCount (toString control.childElements.length)
        (toString test.childElements.length) control.path parent control.name] :=
  if_neg h

/-- Nothing differs about a control attribute exactly if the test element has it with the same
value. -/
theorem attributeDifference?_eq_none_iff {name : ExpandedName} {a : Attribute} :
    attributeDifference? control test name a = none ↔
      (test.attributes.get? name).map Attribute.value = some a.value := by
  unfold attributeDifference?
  cases test.attributes.get? name with
  | none => simp
  | some other =>
    by_cases hvalue : other.value = a.value
    · simp [hvalue]
    · simp [hvalue]

/-- A test attribute is not extra exactly if the control element has one of its name. -/
theorem extraAttribute?_eq_none_iff {name : ExpandedName} {a : Attribute} :
    extraAttribute? control name a = none ↔ control.attributes.get? name ≠ none := by
  unfold extraAttribute?
  cases control.attributes.get? name <;> simp

/-- Comparing the attributes in both directions finds no difference exactly when they are the
same. -/
theorem attributeDifferences_eq_nil_iff :
    attributeDifferences control test = [] ↔ control.SameAttributes test := by
  unfold attributeDifferences
  rw [List.append_eq_nil_iff, List.filterMap_eq_nil_iff, List.filterMap_eq_nil_iff]
  constructor
  · rintro ⟨hcontrol, htest⟩ name
    cases hc : control.attributes.get? name with
    | some a =>
      have hmem := (control.attributes.mem_entries_iff name a).mpr hc
      exact (attributeDifference?_eq_none_iff.mp (hcontrol (name, a) hmem)).symm
    | none =>
      cases ht : test.attributes.get? name with
      | none => rfl
      | some a =>
        have hmem := (test.attributes.mem_entries_iff name a).mpr ht
        exact absurd hc (extraAttribute?_eq_none_iff.mp (htest (name, a) hmem))
  · intro hsame
    constructor
    · rintro ⟨name, a⟩ hmem
      have hc := (control.attributes.mem_entries_iff name a).mp hmem
      refine attributeDifference?_eq_none_iff.mpr ?_
      rw [← hsame name, hc]
      rfl
    · rintro ⟨name, a⟩ hmem
      have ht := (test.attributes.mem_entries_iff name a).mp hmem
      refine extraAttribute?_eq_none_iff.mpr ?_
      intro hc
      have hname := hsame name
      rw [hc, ht] at hname
      cases hname

/-! ## Which differences these are -/

/-- A difference of names shows both names at the control element. -/
theorem mem_nameDifferences : d ∈ nameDifferences parent control test ↔
    control.expanded ≠ test.expanded ∧
      d = .between .elementName control.name test.name control.path parent control.name := by
  unfold nameDifferences
  split <;> simp_all

/-- A difference of texts shows both texts at the control element. -/
theorem mem_textDifferences : d ∈ textDifferences parent control test ↔
    control.textContent ≠ test.textContent ∧
      d = .between .textValue control.textContent test.textContent control.path parent
        control.name := by
  unfold textDifferences
  split <;> simp_all

/-- A difference of counts shows both counts at the control element. -/
theorem mem_countDifferences : d ∈ countDifferences parent control test ↔
    control.childElements.length ≠ test.childElements.length ∧
      d = .between .childCount (toString control.childElements.length)
        (toString test.childElements.length) control.path parent control.name := by
  unfold countDifferences
  simp only
  split <;> simp_all

/-- What differs about a control attribute: its value, or that the test element lacks it. -/
theorem attributeDifference?_eq_some_iff {name : ExpandedName} {a : Attribute} :
    attributeDifference? control test name a = some d ↔
      (∃ other, test.attributes.get? name = some other ∧ other.value ≠ a.value ∧
        d = .between .attributeValue a.value other.value control.path control.name a.name) ∨
      test.attributes.get? name = none ∧
        d = .between .attributeLookup a.name none control.path control.name a.name := by
  unfold attributeDifference?
  cases test.attributes.get? name with
  | none => simp [@eq_comm _ d]
  | some other =>
    by_cases hvalue : other.value = a.value
    · simp [hvalue]
    · simp [hvalue, @eq_comm _ d]

/-- A test attribute whose name the control element lacks is shown as added. -/
theorem extraAttribute?_eq_some_iff {name : ExpandedName} {a : Attribute} :
    extraAttribute? control name a = some d ↔ control.attributes.get? name = none ∧
      d = .between .attributeLookup none a.name control.path control.name a.name := by
  unfold extraAttribute?
  cases control.attributes.get? name <;> simp [@eq_comm _ d]

/-- An attribute has another value, or it is missing, or it is extra. -/
theorem mem_attributeDifferences : d ∈ attributeDifferences control test ↔
    (∃ name u v, control.attributes.get? name = some u ∧ test.attributes.get? name = some v ∧
      v.value ≠ u.value ∧
      d = .between .attributeValue u.value v.value control.path control.name u.name) ∨
    (∃ name u, control.attributes.get? name = some u ∧ test.attributes.get? name = none ∧
      d = .between .attributeLookup u.name none control.path control.name u.name) ∨
    (∃ name v, control.attributes.get? name = none ∧ test.attributes.get? name = some v ∧
      d = .between .attributeLookup none v.name control.path control.name v.name) := by
  simp only [attributeDifferences, List.mem_append, List.mem_filterMap, Prod.exists,
    Dictionary.mem_entries_iff, attributeDifference?_eq_some_iff, extraAttribute?_eq_some_iff]
  constructor
  · rintro (⟨name, u, hu, ⟨v, hv, hvalue, rfl⟩ | ⟨hv, rfl⟩⟩ | ⟨name, v, hv, hu, rfl⟩)
    · exact .inl ⟨name, u, v, hu, hv, hvalue, rfl⟩
    · exact .inr (.inl ⟨name, u, hu, hv, rfl⟩)
    · exact .inr (.inr ⟨name, v, hu, hv, rfl⟩)
  · rintro (⟨name, u, v, hu, hv, hvalue, rfl⟩ | ⟨name, u, hu, hv, rfl⟩ | ⟨name, v, hu, hv, rfl⟩)
    · exact .inl ⟨name, u, hu, .inl ⟨v, hv, hvalue, rfl⟩⟩
    · exact .inl ⟨name, u, hu, .inr ⟨hv, rfl⟩⟩
    · exact .inr ⟨name, v, hv, hu, rfl⟩

/-! ## Where own differences are addressed, and of what kind they are -/

/-- A difference of names is addressed at the control element. -/
theorem of_mem_nameDifferences (h : d ∈ nameDifferences parent control test) :
    d.path = control.path ∧ d.kind = .elementName := by
  obtain ⟨-, rfl⟩ := mem_nameDifferences.mp h
  exact ⟨rfl, rfl⟩

/-- A difference of texts is addressed at the control element. -/
theorem of_mem_textDifferences (h : d ∈ textDifferences parent control test) :
    d.path = control.path ∧ d.kind = .textValue := by
  obtain ⟨-, rfl⟩ := mem_textDifferences.mp h
  exact ⟨rfl, rfl⟩

/-- A difference of counts is addressed at the control element. -/
theorem of_mem_countDifferences (h : d ∈ countDifferences parent control test) :
    d.path = control.path ∧ d.kind = .childCount := by
  obtain ⟨-, rfl⟩ := mem_countDifferences.mp h
  exact ⟨rfl, rfl⟩

/-- A difference of attributes is addressed at the control element. -/
theorem of_mem_attributeDifferences (h : d ∈ attributeDifferences control test) :
    d.path = control.path ∧ (d.kind = .attributeValue ∨ d.kind = .attributeLookup) := by
  rcases mem_attributeDifferences.mp h with
    ⟨_, u, v, -, -, -, rfl⟩ | ⟨_, u, -, -, rfl⟩ | ⟨_, v, -, -, rfl⟩
  · exact ⟨rfl, .inl rfl⟩
  · exact ⟨rfl, .inr rfl⟩
  · exact ⟨rfl, .inr rfl⟩

/-- What differs about a pair of elements is the name, an attribute, the text or the number of
children. -/
theorem mem_ownDifferences : d ∈ ownDifferences parent control test ↔
    d ∈ nameDifferences parent control test ∨ d ∈ attributeDifferences control test ∨
      d ∈ textDifferences parent control test ∨ d ∈ countDifferences parent control test := by
  simp only [ownDifferences, List.mem_append, or_assoc]

/-- What differs about an element itself is addressed at it. -/
theorem path_of_mem_ownDifferences (h : d ∈ ownDifferences parent control test) :
    d.path = control.path := by
  rcases mem_ownDifferences.mp h with h | h | h | h
  · exact (of_mem_nameDifferences h).1
  · exact (of_mem_attributeDifferences h).1
  · exact (of_mem_textDifferences h).1
  · exact (of_mem_countDifferences h).1

/-- What differs about an element itself is never a child that is missing or extra. -/
theorem kind_of_mem_ownDifferences (h : d ∈ ownDifferences parent control test) :
    d.kind ≠ .childLookup := by
  intro hlookup
  rcases mem_ownDifferences.mp h with h | h | h | h
  · cases hlookup.symm.trans (of_mem_nameDifferences h).2
  · rcases (of_mem_attributeDifferences h).2 with hkind | hkind
    · cases hlookup.symm.trans hkind
    · cases hlookup.symm.trans hkind
  · cases hlookup.symm.trans (of_mem_textDifferences h).2
  · cases hlookup.symm.trans (of_mem_countDifferences h).2

/-- A number of children is told nowhere else. -/
theorem mem_countDifferences_of_kind (h : d ∈ ownDifferences parent control test)
    (hkind : d.kind = .childCount) : d ∈ countDifferences parent control test := by
  rcases mem_ownDifferences.mp h with h | h | h | h
  · cases hkind.symm.trans (of_mem_nameDifferences h).2
  · rcases (of_mem_attributeDifferences h).2 with hother | hother
    · cases hkind.symm.trans hother
    · cases hkind.symm.trans hother
  · cases hkind.symm.trans (of_mem_textDifferences h).2
  · exact h

/-- Elements about which nothing differs but the number of children are alike. -/
theorem alike_of_only_counts
    (h : ∀ d ∈ ownDifferences parent control test, d.kind = .childCount) : control.Alike test := by
  have hname : nameDifferences parent control test = [] := by
    rw [List.eq_nil_iff_forall_not_mem]
    intro d hd
    have hkind := h d (mem_ownDifferences.mpr (.inl hd))
    rw [(of_mem_nameDifferences hd).2] at hkind
    cases hkind
  have hattributes : attributeDifferences control test = [] := by
    rw [List.eq_nil_iff_forall_not_mem]
    intro d hd
    have hkind := h d (mem_ownDifferences.mpr (.inr (.inl hd)))
    rcases (of_mem_attributeDifferences hd).2 with hd | hd <;> rw [hd] at hkind <;> cases hkind
  have htext : textDifferences parent control test = [] := by
    rw [List.eq_nil_iff_forall_not_mem]
    intro d hd
    have hkind := h d (mem_ownDifferences.mpr (.inr (.inr (.inl hd))))
    rw [(of_mem_textDifferences hd).2] at hkind
    cases hkind
  exact ⟨nameDifferences_eq_nil_iff.mp hname, attributeDifferences_eq_nil_iff.mp hattributes,
    textDifferences_eq_nil_iff.mp htext⟩

/-- Between elements that are alike only the number of children can differ. -/
theorem ownDifferences_of_alike (h : control.Alike test) :
    ownDifferences parent control test = countDifferences parent control test := by
  rw [ownDifferences, nameDifferences_eq_nil_iff.mpr h.expanded,
    attributeDifferences_eq_nil_iff.mpr h.attributes, textDifferences_eq_nil_iff.mpr h.text]
  rfl

/-! ## What differs about the children -/

/-- The matching of the child elements of two elements. -/
def matching (selectors : List Selector) (control test : Element) : Matching :=
  .ofChildren selectors control.childElements test.childElements

/-- The counterpart of every control child. -/
def counterparts (selectors : List Selector) (control test : Element) : List (Option Element) :=
  (matching selectors control test).partners.map (·.bind (test.childElements[·]?))

/-- The differences of a control child and its counterpart; without one, the child is missing. -/
def pairDifferences (selectors : List Selector) (parent : String) :
    Element × Option Element → List Difference
  | (child, some counterpart) => child.differences selectors parent counterpart
  | (child, none) => [.missingChild parent child]

/-- Every control child has a counterpart or the lack of one. -/
theorem length_counterparts :
    (counterparts selectors control test).length = control.childElements.length := by
  rw [counterparts, List.length_map]
  exact (Matching.pairing_ofChildren selectors _ _).1

/-- Every control child has its place among the pairs. -/
theorem map_fst_zip_counterparts (selectors : List Selector) (control test : Element) :
    (control.childElements.zip (counterparts selectors control test)).map Prod.fst =
      control.childElements :=
  List.map_fst_zip (Nat.le_of_eq length_counterparts.symm)

/-- Where there are control children and each has a counterpart, some test child is a partner. -/
theorem exists_partner (hchildren : control.childElements ≠ [])
    (hpairs : ∀ pair ∈ control.childElements.zip (counterparts selectors control test),
      ∃ b, pair.2 = some b) : ∃ t, some t ∈ (matching selectors control test).partners := by
  have hlength : (counterparts selectors control test).length = control.childElements.length :=
    length_counterparts
  cases hcounterparts : counterparts selectors control test with
  | nil =>
    rw [hcounterparts] at hlength
    exact absurd (List.eq_nil_of_length_eq_zero hlength.symm) hchildren
  | cons counterpart others =>
    obtain ⟨child, rest, hcons⟩ := List.exists_cons_of_ne_nil hchildren
    rw [hcons, hcounterparts] at hpairs
    obtain ⟨b, rfl⟩ : ∃ b, counterpart = some b := hpairs (child, counterpart) List.mem_cons_self
    have hmem : some b ∈ counterparts selectors control test := by
      rw [hcounterparts]
      exact List.mem_cons_self
    obtain ⟨partner, hpartner, hbind⟩ := List.mem_map.mp hmem
    obtain ⟨t, rfl, -⟩ := Option.bind_eq_some_iff.mp hbind
    exact ⟨t, hpartner⟩

/-- The differences of some nodes are those of the elements among them, each with its own
partner. -/
theorem childDifferences_eq {nodes : List Node} {partners : List (Option Element)}
    (hlength : partners.length = (nodes.filterMap Node.element?).length) :
    childDifferences selectors parent nodes partners =
      ((nodes.filterMap Node.element?).zip partners).flatMap
        (pairDifferences selectors parent) := by
  induction nodes generalizing partners with
  | nil => rfl
  | cons node rest ih =>
    cases node with
    | text content => exact ih hlength
    | comment content => exact ih hlength
    | element child =>
      cases partners with
      | nil => cases hlength
      | cons partner partners =>
        have hlength' : partners.length = (rest.filterMap Node.element?).length := by
          simpa [Node.element?] using hlength
        have hrest := ih hlength'
        rw [childDifferences, List.tail_cons, hrest]
        cases partner <;> simp [Node.element?, pairDifferences]

/-- The differences of two elements: their own, those of the pairs, and the extra children. -/
theorem differences_eq : control.differences selectors parent test =
    ownDifferences parent control test ++
      (control.childElements.zip (counterparts selectors control test)).flatMap
        (pairDifferences selectors control.name) ++
      extraDifferences control test (matching selectors control test) := by
  cases control with
  | mk heading children =>
    have hchildren : childDifferences selectors heading.name children
        (counterparts selectors (mk heading children) test) = _ :=
      childDifferences_eq length_counterparts
    show ownDifferences parent _ test ++ childDifferences selectors heading.name children
      (counterparts selectors (mk heading children) test) ++ _ = _
    rw [hchildren]
    rfl

/-- A difference of two elements is one of the three. -/
theorem mem_differences : d ∈ control.differences selectors parent test ↔
    d ∈ ownDifferences parent control test ∨
      (∃ pair ∈ control.childElements.zip (counterparts selectors control test),
        d ∈ pairDifferences selectors control.name pair) ∨
      d ∈ extraDifferences control test (matching selectors control test) := by
  rw [differences_eq, List.mem_append, List.mem_append, List.mem_flatMap, or_assoc]

/-- Every test child that is left over is an extra child. -/
theorem mem_extraDifferences : d ∈ extraDifferences control test (matching selectors control test) ↔
    ∃ position ∈ (matching selectors control test).unmatchedTest,
      ∃ child, test.childElements[position]? = some child ∧
        d = .extraChild control.name
          (anchorPath control (matching selectors control test) position) child := by
  simp only [extraDifferences, List.mem_filterMap, Option.map_eq_some_iff]
  constructor
  · rintro ⟨position, hposition, child, hchild, rfl⟩
    exact ⟨position, hposition, child, hchild, rfl⟩
  · rintro ⟨position, hposition, child, hchild, rfl⟩
    exact ⟨position, hposition, child, hchild, rfl⟩

/-- A test child without partner is reported as extra. -/
theorem exists_extraChild {position : Nat}
    (h : position ∈ (matching selectors control test).unmatchedTest) :
    ∃ child, .extraChild control.name
      (anchorPath control (matching selectors control test) position) child ∈
        extraDifferences control test (matching selectors control test) := by
  have hlt := (Matching.mem_unmatchedTest.mp h).1
  exact ⟨test.childElements[position], mem_extraDifferences.mpr
    ⟨position, h, _, List.getElem?_eq_getElem hlt, rfl⟩⟩

/-- An extra child is addressed at a control child, or at the control element itself. -/
theorem anchorPath_eq (control : Element) (m : Matching) (position : Nat) :
    (∃ sibling ∈ control.childElements, anchorPath control m position = sibling.path) ∨
      anchorPath control m position = control.path := by
  unfold anchorPath
  split
  · rename_i sibling hsibling
    obtain ⟨i, -, hi⟩ := Option.bind_eq_some_iff.mp hsibling
    exact .inl ⟨sibling, List.mem_of_getElem? hi, rfl⟩
  · exact .inr rfl

/-- Where some control child has a partner, every extra child is addressed at a control child. -/
theorem exists_sibling_of_anchorPath {position t : Nat}
    (hposition : position ∈ (matching selectors control test).unmatchedTest)
    (hpartner : some t ∈ (matching selectors control test).partners) :
    ∃ sibling ∈ control.childElements,
      anchorPath control (matching selectors control test) position = sibling.path := by
  have hfree := (Matching.mem_unmatchedTest.mp hposition).2
  have hne : t ≠ position := by
    rintro rfl
    exact hfree hpartner
  obtain ⟨c, hc⟩ := List.mem_iff_getElem?.mp hpartner
  obtain ⟨c', hanchor⟩ := Option.isSome_iff_exists.mp
    (Matching.isSome_anchor? (Matching.mem_pairs.mpr hc) hne)
  obtain ⟨t', hpair⟩ := Matching.mem_pairs_of_anchor? hanchor
  have hlt : c' < control.childElements.length := by
    obtain ⟨hlt, -⟩ := List.getElem?_eq_some_iff.mp (Matching.mem_pairs.mp hpair)
    rw [← (Matching.pairing_ofChildren selectors control.childElements test.childElements).1]
    exact hlt
  refine ⟨control.childElements[c'], List.getElem_mem hlt, ?_⟩
  rw [anchorPath, hanchor, Option.bind_some, List.getElem?_eq_getElem hlt]

/-- Every difference is addressed at an element of the control tree. -/
theorem path_of_mem_differences (h : d ∈ control.differences selectors parent test) :
    ∃ x ∈ control.all, d.path = x.path := by
  induction control using descent generalizing parent test with
  | step control ih =>
    rcases mem_differences.mp h with h | ⟨⟨child, counterpart⟩, hpair, h⟩ | h
    · exact ⟨control, self_mem_all control, path_of_mem_ownDifferences h⟩
    · have hchild := (List.of_mem_zip hpair).1
      cases counterpart with
      | some counterpart =>
        obtain ⟨x, hx, hpath⟩ := ih child hchild h
        exact ⟨x, mem_all_trans (child_mem_all hchild) hx, hpath⟩
      | none =>
        obtain rfl := List.mem_singleton.mp h
        exact ⟨child, child_mem_all hchild, rfl⟩
    · obtain ⟨position, -, child, -, rfl⟩ := mem_extraDifferences.mp h
      rcases anchorPath_eq control (matching selectors control test) position with
        ⟨sibling, hsibling, hpath⟩ | hpath
      · exact ⟨sibling, child_mem_all hsibling, hpath⟩
      · exact ⟨control, self_mem_all control, hpath⟩

/-- What differs about a pair is addressed inside its control child. -/
theorem path_of_mem_pairDifferences {pair : Element × Option Element}
    (h : d ∈ pairDifferences selectors parent pair) : ∃ x ∈ pair.1.all, d.path = x.path := by
  obtain ⟨child, counterpart⟩ := pair
  cases counterpart with
  | some counterpart => exact path_of_mem_differences h
  | none =>
    obtain rfl := List.mem_singleton.mp h
    exact ⟨child, self_mem_all child, rfl⟩

end XmlCompare.Element
