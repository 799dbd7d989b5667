import XmlCompare.Dictionary

/-!
# Counting siblings

While a document is read, the children of every open element are counted by local name. Entering
a child counts it and begins a new count for its own children; leaving it returns to the count of
its siblings.
-/

set_option autoImplicit false

namespace XmlCompare

/-- How many children of each name an element has had so far. -/
abbrev NameCounts := Dictionary String Nat

/-- The counts for the innermost open element, and those for the elements around it from the
inside out; the outermost counts belong to the document. -/
structure SiblingCounts where
  inner : NameCounts
  outer : List NameCounts
  deriving DecidableEq

namespace SiblingCounts

/-- Only the document is open, and nothing has been counted. -/
def document : SiblingCounts := ⟨Dictionary.empty, []⟩

instance : Inhabited SiblingCounts := ⟨document⟩

/-- The ordinal that the next child of this name gets. -/
def next (c : SiblingCounts) (name : String) : Nat := (c.inner.get? name).getD 0 + 1

/-- Counts a child of this name and enters it. -/
def enter (c : SiblingCounts) (name : String) : SiblingCounts :=
  ⟨Dictionary.empty, c.inner.insert name (c.next name) :: c.outer⟩

/-- Leaves the innermost open element; the document is never left. -/
def leave (c : SiblingCounts) : SiblingCounts :=
  match c.outer with
  | [] => c
  | inner :: outer => ⟨inner, outer⟩

/-- After a child has been entered and left, it has been counted and nothing else has changed. -/
@[simp] theorem leave_enter (c : SiblingCounts) (name : String) :
    (c.enter name).leave = ⟨c.inner.insert name (c.next name), c.outer⟩ := rfl

end SiblingCounts

end XmlCompare
