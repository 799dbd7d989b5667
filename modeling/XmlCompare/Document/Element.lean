import XmlCompare.Line.Range
import XmlCompare.Name.Scope
import XmlCompare.Path.Basic
import XmlCompare.Text.Blank

/-!
# Documents

A document is a root element with the comments before and behind it. An element has a name,
attributes and children; it also knows its path and the lines it was read from. Text that holds
only blanks is no child. Comments are kept but have no part in comparisons.
-/

set_option autoImplicit false

namespace XmlCompare

/-- An attribute, with its name as it is written and expanded. -/
structure Attribute where
  name : String
  expanded : ExpandedName
  value : String
  deriving DecidableEq, Repr, Inhabited

/-- An element without its children. -/
structure Heading where
  name : String
  expanded : ExpandedName
  path : Path
  lines : LineRange
  declarations : Declarations
  /-- The attributes that are no declarations, by expanded name. -/
  attributes : Dictionary ExpandedName Attribute
  deriving DecidableEq

mutual

/-- An element with its children in order. -/
inductive Element
  | mk (heading : Heading) (children : List Node)

/-- A child of an element. -/
inductive Node
  | element (element : Element)
  | text (content : String)
  | comment (content : String)

end

-- One function on lists, in place of one for each type, so that the equality of two closed documents
-- can be decided by evaluation.
/-- Decides whether two lists of nodes are the same. -/
@[semireducible] def Node.decEqs : (as bs : List Node) → Decidable (as = bs)
  | [], [] => isTrue rfl
  | .element (.mk heading children) :: as, .element (.mk heading' children') :: bs =>
    have := Node.decEqs children children'
    have := Node.decEqs as bs
    decidable_of_iff (heading = heading' ∧ children = children' ∧ as = bs) (by simp [and_assoc])
  | .text content :: as, .text content' :: bs =>
    have := Node.decEqs as bs
    decidable_of_iff (content = content' ∧ as = bs) (by simp)
  | .comment content :: as, .comment content' :: bs =>
    have := Node.decEqs as bs
    decidable_of_iff (content = content' ∧ as = bs) (by simp)
  | [], _ :: _ => isFalse nofun
  | _ :: _, [] => isFalse nofun
  | .element _ :: _, .text _ :: _ => isFalse nofun
  | .element _ :: _, .comment _ :: _ => isFalse nofun
  | .text _ :: _, .element _ :: _ => isFalse nofun
  | .text _ :: _, .comment _ :: _ => isFalse nofun
  | .comment _ :: _, .element _ :: _ => isFalse nofun
  | .comment _ :: _, .text _ :: _ => isFalse nofun
termination_by _ bs => sizeOf bs

instance : DecidableEq Node := fun a b =>
  have := Node.decEqs [a] [b]
  decidable_of_iff ([a] = [b]) (by simp)

instance : DecidableEq Element := fun a b =>
  decidable_of_iff (Node.element a = Node.element b) (by simp)

/-- A root element with the comments around it. -/
structure Document where
  prolog : List String
  root : Element
  epilog : List String
  deriving DecidableEq

namespace Node

/-- The element that a node is. -/
def element? : Node → Option Element
  | element e => some e
  | text _ => none
  | comment _ => none

/-- The content of a node that is text. -/
def text? : Node → Option String
  | element _ => none
  | text content => some content
  | comment _ => none

/-- The node is text that holds only blanks. -/
def isBlankText : Node → Bool
  | element _ => false
  | text content => Text.isBlankText content
  | comment _ => false

end Node

namespace Element

/-- What an element is without its children. -/
def heading : Element → Heading
  | mk heading _ => heading

/-- The children of an element, in order. -/
def children : Element → List Node
  | mk _ children => children

/-- The name as it is written. -/
def name (e : Element) : String := e.heading.name

/-- The expanded name. -/
def expanded (e : Element) : ExpandedName := e.heading.expanded

/-- The path from the document to the element. -/
def path (e : Element) : Path := e.heading.path

/-- The lines from the start tag to the end tag. -/
def lines (e : Element) : LineRange := e.heading.lines

/-- The attributes that are no declarations, by expanded name. -/
def attributes (e : Element) : Dictionary ExpandedName Attribute := e.heading.attributes

/-- The children that are elements, in order. -/
def childElements (e : Element) : List Element := e.children.filterMap Node.element?

/-- The text directly inside the element, put together and normalised; nothing if it has no
words. -/
def textContent (e : Element) : Option String :=
  Text.normalized (String.join (e.children.filterMap Node.text?))

mutual

/-- The element and all elements inside it, in the order of their start tags. -/
def all : Element → List Element
  | mk heading children => mk heading children :: allOfNodes children
termination_by structural e => e

/-- The elements of a list of nodes and all elements inside them. -/
def allOfNodes : List Node → List Element
  | [] => []
  | .element e :: rest => e.all ++ allOfNodes rest
  | .text _ :: rest => allOfNodes rest
  | .comment _ :: rest => allOfNodes rest
termination_by structural nodes => nodes

end

/-- The elements of a list of nodes are found through those nodes that are elements. -/
theorem allOfNodes_eq (nodes : List Node) :
    allOfNodes nodes = (nodes.filterMap Node.element?).flatMap all := by
  induction nodes with
  | nil => rfl
  | cons node rest ih =>
    cases node <;> simp [allOfNodes, List.filterMap_cons, Node.element?, ih]

/-- An element comes before the elements inside its children. -/
theorem all_eq (e : Element) : e.all = e :: e.childElements.flatMap all := by
  cases e with
  | mk heading children => rw [all, allOfNodes_eq]; rfl

/-- The elements of some trees that are still to be visited, the next one first. A visit hands out
an element and puts its children in its place. -/
@[semireducible] def walk (pending : List Element) : List Element :=
  match pending with
  | [] => []
  | e :: rest => e :: walk (e.childElements ++ rest)
termination_by (pending.flatMap all).length
decreasing_by
  simp only [List.flatMap_append, List.flatMap_cons, List.length_append]
  rw [all_eq e, List.length_cons]
  omega

/-- A walk goes through one tree after the other. -/
theorem walk_eq (pending : List Element) : walk pending = pending.flatMap all := by
  fun_induction walk pending with
  | case1 => rfl
  | case2 e rest ih =>
    rw [ih, List.flatMap_append, List.flatMap_cons, all_eq e]
    rfl

end Element

namespace Document

/-- All elements in the order of their start tags. -/
def elements (d : Document) : List Element := Element.walk [d.root]

/-- A walk from the root meets the root and all elements inside it. -/
theorem elements_eq (d : Document) : d.elements = d.root.all := by
  rw [elements, Element.walk_eq, List.flatMap_singleton]

end Document

end XmlCompare
