import XmlCompare.Proofs.Compare.Addresses
import XmlCompare.Proofs.Report.Deletion
import XmlCompare.Proofs.Report.Outcome

/-!
# Addresses resolve

A comparison addresses differences by paths, and an index is made of the control text without a look
at any other text. Both number siblings in the same way, so the index finds the element at which a
difference is addressed, and no difference is passed over because its address leads nowhere.
-/

set_option autoImplicit false

namespace XmlCompare

open Element (Compared Addressed)

variable {selectors : List Selector} {control test : String} {c t : Document}

/-- What a comparison of two documents finds is what differs about their roots. -/
theorem differences_compareTexts (hcontrol : Document.parse control = .ok c)
    (htest : Document.parse test = .ok t) :
    (compareTexts selectors control test).differences = c.differences selectors t := by
  rw [compareTexts_of_parse hcontrol htest]
  split
  · rename_i hnil
    rw [hnil]
    rfl
  · rfl

/-- Whatever the selectors are, every difference of two documents belongs to a pair of elements that
are compared and is addressed at an element of the control document: what differs about the pair
itself at its control element, a missing child at itself, and an extra child at the control child
next to which it belongs, or at the parent if there is none. The index of the control text finds
that element, so a difference calls for no finding only if it is quiet. -/
theorem differences_are_addressed (selectors : List Selector) (control test : String)
    (c t : Document) (hcontrol : Document.parse control = .ok c)
    (htest : Document.parse test = .ok t) :
    ∃ index, PositionIndex.build control = .ok index ∧
      ∀ d ∈ (compareTexts selectors control test).differences,
        (∃ tag a b, Compared selectors Element.documentTag c.root t.root tag a b ∧
          ∃ x ∈ c.elements, Addressed selectors tag a b d x ∧ d.path = x.path ∧
            index.get? d.path = some x.lines) ∧
        (Finding.ofDifference? index d = none ↔ d.Quiet) := by
  obtain ⟨-, -, index, hbuild, hperm⟩ := Document.index_of_parse hcontrol
  refine ⟨index, hbuild, fun d hd => ?_⟩
  rw [differences_compareTexts hcontrol htest] at hd
  obtain ⟨tag, a, b, x, hcompared, haddressed⟩ := Element.exists_addressed hd
  have hx : x ∈ c.root.all := Element.mem_all_trans hcompared.mem_all.1 haddressed.mem_all
  have hlines : index.get? d.path = some x.lines := by
    rw [haddressed.path]
    exact PositionIndex.get?_of_perm hperm hx
  rw [Document.elements_eq]
  exact ⟨⟨tag, a, b, hcompared, x, hx, haddressed, haddressed.path, hlines⟩,
    Finding.ofDifference?_eq_none_iff hlines⟩

/-- A list whose second item has no counterpart in the other one. -/
def itemsBehind : Element := plainList 2 [plainItem "a" 1 1 1, plainItem "b" 1 2 2]

/-- A list whose first item has no counterpart in the other one. -/
def itemsAhead : Element := plainList 1 [plainItem "x" 1 1 1, plainItem "a" 1 1 1]

/-- The missing item is addressed at itself, and the extra one, which is the first, at the item
behind it. -/
theorem exchanged_items_are_addressed :
    Document.parse "<r><a/>\n<b/></r>" = .ok ⟨[], itemsBehind, []⟩ ∧
    Document.parse "<r><x/><a/></r>" = .ok ⟨[], itemsAhead, []⟩ ∧
    compareTexts Selector.standard "<r><a/>\n<b/></r>" "<r><x/><a/></r>" =
      .different [.missingChild "r" (plainItem "b" 1 2 2),
        .extraChild "r" (plainItem "a" 1 1 1).path (plainItem "x" 1 1 1)] ∧
    ∃ index, PositionIndex.build "<r><a/>\n<b/></r>" = .ok index ∧
      ∀ d ∈ (compareTexts Selector.standard "<r><a/>\n<b/></r>" "<r><x/><a/></r>").differences,
        (∃ tag a b, Compared Selector.standard Element.documentTag itemsBehind itemsAhead tag a b ∧
          ∃ x ∈ (Document.mk [] itemsBehind []).elements,
            Addressed Selector.standard tag a b d x ∧ d.path = x.path ∧
              index.get? d.path = some x.lines) ∧
        (Finding.ofDifference? index d = none ↔ d.Quiet) := by
  have hcontrol : Document.parse "<r><a/>\n<b/></r>" = .ok ⟨[], itemsBehind, []⟩ := by
    decide
  have htest : Document.parse "<r><x/><a/></r>" = .ok ⟨[], itemsAhead, []⟩ := by decide
  have hdifferent : compareTexts Selector.standard "<r><a/>\n<b/></r>" "<r><x/><a/></r>" =
      .different [.missingChild "r" (plainItem "b" 1 2 2),
        .extraChild "r" (plainItem "a" 1 1 1).path (plainItem "x" 1 1 1)] := by
    rw [compareTexts_of_parse hcontrol htest]
    rfl
  exact ⟨hcontrol, htest, hdifferent,
    differences_are_addressed Selector.standard _ _ _ _ hcontrol htest⟩

end XmlCompare
