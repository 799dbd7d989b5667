import XmlCompare.Document.Error
import XmlCompare.Path.Text

/-!
# Differences

A difference says what is not the same in two documents, with the values of both sides, and is
addressed by a path of the control document. Values are kept without the blanks around them.
-/

set_option autoImplicit false

namespace XmlCompare

/-- What is not the same. -/
inductive DifferenceKind
  | elementName
  | attributeValue
  /-- One side only has an attribute. -/
  | attributeLookup
  | textValue
  | childCount
  /-- A child element has no counterpart. -/
  | childLookup
  deriving DecidableEq, Repr

/-- What a kind of difference is called. -/
def DifferenceKind.text : DifferenceKind → String
  | .elementName => "element name"
  | .attributeValue => "attribute value"
  | .attributeLookup => "attribute lookup"
  | .textValue => "text value"
  | .childCount => "child count"
  | .childLookup => "child lookup"

/-- One difference: the value on each side, if that side has any, the path of the control element
it is addressed at, and the names of what it is about and of the element around that. -/
structure Difference where
  kind : DifferenceKind
  control : Option String
  test : Option String
  path : Path
  parentTag : String
  propertyTag : String
  deriving DecidableEq, Repr

/-- A value as it is shown; what is absent is shown as `null`. -/
def showValue (value : Option String) : String := value.getD "null"

namespace Difference

/-- A difference as it is listed: what differs, from what to what, and where. -/
def text (d : Difference) : String :=
  d.kind.text ++ " at " ++ d.path.text ++ ": Control: " ++ showValue d.control ++ " => Test: "
    ++ showValue d.test ++ " (" ++ d.parentTag ++ " / " ++ d.propertyTag ++ ")"

end Difference

/-- One of the two documents that are compared. -/
inductive Side
  | control
  | test
  deriving DecidableEq, Repr

/-- What a side of a comparison is called. -/
def Side.text : Side → String
  | .control => "control"
  | .test => "test"

/-- The text on one side is no document. -/
structure Malformed where
  side : Side
  error : ParseError
  deriving DecidableEq, Repr

/-- What is said about a side that cannot be read. -/
def Malformed.message (m : Malformed) : String :=
  m.side.text ++ " document is malformed: " ++ m.error.message

/-- What comes out of comparing two texts. -/
inductive Outcome
  /-- Nothing differs, or one of the texts is blank. -/
  | same
  /-- The documents differ; the list is not empty. -/
  | different (differences : List Difference)
  /-- One of the texts is no document. -/
  | malformed (cause : Malformed)
  deriving DecidableEq, Repr

end XmlCompare
