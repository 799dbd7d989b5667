import XmlCompare.Document.Element

/-!
# Selectors

A selector decides whether an element of the control document may be taken for the counterpart of
an element of the test document.
-/

set_option autoImplicit false

namespace XmlCompare

/-- Accepts a control element and a test element as counterparts, or does not. -/
abbrev Selector := Element → Element → Bool

namespace Selector

/-- Pairs elements of one expanded name. -/
def byName : Selector := fun control test => control.expanded = test.expanded

/-- Accepts elements with the same expanded name and the same text. Two elements without text have
the same text. -/
def byNameAndText : Selector := fun control test =>
  control.expanded = test.expanded && control.textContent = test.textContent

/-- The selectors used where none are asked for: by name and text first, then by name alone. -/
def standard : List Selector := [byNameAndText, byName]

end Selector

end XmlCompare
