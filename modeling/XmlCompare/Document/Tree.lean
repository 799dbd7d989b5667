import XmlCompare.Document.Element
import XmlCompare.Document.Event

/-!
# From events to a document

The tree is grown as events come in: an opening element is put on a stack, text and comments go to
the innermost open element, and a closing element goes to the one around it. Text that is
interrupted by nothing but a character section is one child. Names are expanded where the element
opens, in the scope of its own declarations.
-/

set_option autoImplicit false

namespace XmlCompare

namespace Heading

/-- The namespace declarations among attributes, by abbreviation. -/
def declarationsOf (attributes : List (String × String)) : Declarations :=
  .ofList (attributes.filterMap fun (name, value) =>
    (Name.declares? name).map fun abbreviation => (abbreviation, value))

/-- The attributes that declare no namespace, by expanded name. -/
def attributesOf (scopes : Scopes) (attributes : List (String × String)) :
    Dictionary ExpandedName Attribute :=
  .ofList ((attributes.filter fun (name, _) => (Name.declares? name).isNone).map
    fun (name, value) =>
      let expanded := scopes.attributeName name
      (expanded, ⟨name, expanded, value⟩))

/-- The declarations, with names and values as projections of the pairs. -/
theorem declarationsOf_eq (attributes : List (String × String)) : declarationsOf attributes =
    .ofList (attributes.filterMap fun a =>
      (Name.declares? a.1).map fun abbreviation => (abbreviation, a.2)) := rfl

/-- The attributes, with names and values as projections of the pairs. -/
theorem attributesOf_eq (scopes : Scopes) (attributes : List (String × String)) :
    attributesOf scopes attributes = .ofList ((attributes.filter fun a =>
      (Name.declares? a.1).isNone).map fun a => (scopes.attributeName a.1,
        ⟨a.1, scopes.attributeName a.1, a.2⟩)) := rfl

/-- The heading of an element that opens in the scopes of its surroundings. -/
def ofOpened (outer : Scopes) (e : OpenedElement) : Heading :=
  let declarations := declarationsOf e.attributes
  let scopes := outer.enter declarations.entries
  { name := e.name
    expanded := scopes.elementName e.name
    path := e.path
    lines := .single e.line
    declarations
    attributes := attributesOf scopes e.attributes }

end Heading

namespace Node

/-- Adds text at the end of some nodes; a text node at the end takes it in. -/
def appendText (content : String) : List Node → List Node
  | [] => [text content]
  | [text last] => [text (last ++ content)]
  | node :: rest => node :: appendText content rest

end Node

/-- An element whose end has not been read. -/
structure OpenNode where
  heading : Heading
  children : List Node

namespace OpenNode

/-- Adds a child at the end. -/
def push (e : OpenNode) (child : Node) : OpenNode := { e with children := e.children ++ [child] }

/-- Adds text at the end, to the text that is there if the last child is text. -/
def pushText (e : OpenNode) (content : String) : OpenNode :=
  { e with children := Node.appendText content e.children }

/-- The element, with its lines known and its blank text dropped. -/
def close (e : OpenNode) (lines : LineRange) : Element :=
  .mk { e.heading with lines } (e.children.filter (!·.isBlankText))

end OpenNode

/-- A tree that is growing: the scopes in force, the open elements, innermost first, and what
stands at the top. -/
structure Growth where
  scopes : Scopes
  stack : List OpenNode
  root : Option Element
  prolog : List String
  epilog : List String

namespace Growth

/-- Nothing has grown yet, and only the scopes of the document are in force. -/
def initial : Growth := ⟨.document, [], none, [], []⟩

/-- Puts text into the innermost open element, if there is one. -/
def addText (g : Growth) (content : String) : Growth :=
  match g.stack with
  | [] => g
  | e :: stack => { g with stack := e.pushText content :: stack }

/-- Puts a comment into the innermost open element, or before or behind the root. -/
def addComment (g : Growth) (content : String) : Growth :=
  match g.stack with
  | e :: stack => { g with stack := e.push (.comment content) :: stack }
  | [] =>
    if g.root.isNone then { g with prolog := g.prolog ++ [content] }
    else { g with epilog := g.epilog ++ [content] }

/-- Opens an element. -/
def openElement (g : Growth) (e : OpenedElement) : Growth :=
  let heading := Heading.ofOpened g.scopes e
  { g with
    scopes := g.scopes.enter heading.declarations.entries
    stack := ⟨heading, []⟩ :: g.stack }

/-- Closes the innermost open element. -/
def closeElement (g : Growth) (lines : LineRange) : Growth :=
  let scopes := g.scopes.leave
  match g.stack with
  | [] => { g with scopes }
  | e :: [] => { g with scopes, stack := [], root := some (e.close lines) }
  | e :: parent :: stack =>
    { g with scopes, stack := parent.push (.element (e.close lines)) :: stack }

/-- Takes in one event. -/
def step (g : Growth) : Event → Growth
  | .opened e => g.openElement e
  | .closed e => g.closeElement e.lines
  | .text content => g.addText content
  | .comment content => g.addComment content

end Growth

namespace Document

/-- The document that some events describe, if they close a root element. -/
def ofEvents? (events : List Event) : Option Document :=
  let g := events.foldl Growth.step .initial
  g.root.map fun root => ⟨g.prolog, root, g.epilog⟩

/-- Reads a text as a document, or finds the first thing that is wrong with it. -/
def parse (text : String) : Except ParseError Document := do
  let events ← (Event.readAll text).toExcept
  match ofEvents? events with
  | some document => return document
  | none => throw ⟨.emptyDocument, ⟨1, 1⟩⟩

end Document

end XmlCompare
