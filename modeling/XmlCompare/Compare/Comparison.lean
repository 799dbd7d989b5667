import XmlCompare.Compare.Difference
import XmlCompare.Compare.Matching
import XmlCompare.Document.Tree

/-!
# Comparing documents

The roots of two documents are compared with each other, then their children as they are matched,
and so on down. What counts is the expanded names of elements and attributes, attribute values,
text, and which child elements there are; the order of attributes and siblings, comments,
abbreviations and declarations do not.

For a pair of elements the differences come in this order: the name, the attributes of the control
element, the attributes that only the test element has, the text, the number of children; then for
every control child what differs inside it, or that it is missing; then the test children that are
extra, each addressed next to where it stands.
-/

set_option autoImplicit false

namespace XmlCompare

namespace Difference

/-- A difference with its values freed of the blanks around them. -/
def between (kind : DifferenceKind) (control test : Option String) (path : Path)
    (parentTag propertyTag : String) : Difference :=
  { kind, control := control.map Text.trimmed, test := test.map Text.trimmed, path, parentTag,
    propertyTag }

/-- A control child without counterpart, addressed at itself. -/
def missingChild (parent : String) (child : Element) : Difference :=
  between .childLookup (some child.name) none child.path parent child.name

/-- A test child without counterpart, addressed at a control element near it. -/
def extraChild (parent : String) (anchor : Path) (child : Element) : Difference :=
  between .childLookup none (some child.name) anchor parent child.name

end Difference

namespace Element

/-- The name of what encloses a root element. -/
def documentTag : String := "#document"

/-- The difference in name of two elements, below an element called `parent`. -/
def nameDifferences (parent : String) (control test : Element) : List Difference :=
  if control.expanded = test.expanded then []
  else [.between .elementName control.name test.name control.path parent control.name]

/-- What differs about one attribute of the control element, which has it under `name`. -/
def attributeDifference? (control test : Element) (name : ExpandedName) (a : Attribute) :
    Option Difference :=
  match test.attributes.get? name with
  | some other =>
    if other.value = a.value then none
    else some (.between .attributeValue a.value other.value control.path control.name a.name)
  | none => some (.between .attributeLookup a.name none control.path control.name a.name)

/-- An attribute that only the test element has, under `name`. -/
def extraAttribute? (control : Element) (name : ExpandedName) (a : Attribute) :
    Option Difference :=
  match control.attributes.get? name with
  | some _ => none
  | none => some (.between .attributeLookup none a.name control.path control.name a.name)

/-- The differences in attributes: those of the control element in order, then those that only the
test element has. -/
def attributeDifferences (control test : Element) : List Difference :=
  control.attributes.entries.filterMap (fun (name, a) => attributeDifference? control test name a)
    ++ test.attributes.entries.filterMap (fun (name, a) => extraAttribute? control name a)

/-- The difference of the texts directly inside two elements, if there is one. -/
def textDifferences (parent : String) (control test : Element) : List Difference :=
  if control.textContent = test.textContent then []
  else
    [.between .textValue control.textContent test.textContent control.path parent control.name]

/-- The difference of the numbers of children of two elements, if there is one. -/
def countDifferences (parent : String) (control test : Element) : List Difference :=
  let n := control.childElements.length
  let m := test.childElements.length
  if n = m then []
  else [.between .childCount (toString n) (toString m) control.path parent control.name]

/-- What differs about a pair of elements apart from their children. -/
def ownDifferences (parent : String) (control test : Element) : List Difference :=
  nameDifferences parent control test ++ attributeDifferences control test
    ++ textDifferences parent control test ++ countDifferences parent control test

/-- The path at which an extra test child is addressed. -/
def anchorPath (control : Element) (m : Matching) (position : Nat) : Path :=
  match (m.anchor? position).bind (control.childElements[·]?) with
  | some sibling => sibling.path
  | none => control.path

/-- The children that a matching leaves without partner, first those of the control element, then
those of the test element. -/
def extraDifferences (control test : Element) (m : Matching) : List Difference :=
  let children := test.childElements
  m.unmatchedTest.filterMap fun position =>
    children[position]?.map (.extraChild control.name (anchorPath control m position))

mutual

/-- The differences of a pair of elements below an element called `parent`. -/
def differences (selectors : List Selector) (parent : String) : Element → Element → List Difference
  | mk heading children, test =>
    let control := mk heading children
    let counterparts := test.childElements
    let m := Matching.ofChildren selectors control.childElements counterparts
    ownDifferences parent control test
      ++ childDifferences selectors heading.name children
        (m.partners.map (·.bind (counterparts[·]?)))
      ++ extraDifferences control test m
termination_by structural control => control

/-- The differences of the child elements among some nodes, given the counterpart of each, below
an element called `parent`. A child without counterpart is missing as a whole. -/
def childDifferences (selectors : List Selector) (parent : String) :
    List Node → List (Option Element) → List Difference
  | [], _ => []
  | .element child :: rest, partners =>
    (match partners.head?.join with
      | some counterpart => child.differences selectors parent counterpart
      | none => [.missingChild parent child])
      ++ childDifferences selectors parent rest partners.tail
  | .text _ :: rest, partners => childDifferences selectors parent rest partners
  | .comment _ :: rest, partners => childDifferences selectors parent rest partners
termination_by structural nodes => nodes

end

end Element

namespace Document

/-- The differences of two documents, whose roots are always a pair. -/
def differences (selectors : List Selector) (control test : Document) : List Difference :=
  control.root.differences selectors Element.documentTag test.root

end Document

/-- Compares two texts. If one of them is blank there is nothing to compare; else the control text
is read before the test text. -/
def compareTexts (selectors : List Selector) (control test : String) : Outcome :=
  if Text.isBlankText control || Text.isBlankText test then .same
  else
    match Document.parse control with
    | .error error => .malformed ⟨.control, error⟩
    | .ok c =>
      match Document.parse test with
      | .error error => .malformed ⟨.test, error⟩
      | .ok t =>
        match c.differences selectors t with
        | [] => .same
        | d :: ds => .different (d :: ds)

end XmlCompare
