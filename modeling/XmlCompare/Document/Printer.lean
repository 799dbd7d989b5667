import XmlCompare.Document.Tree
import XmlCompare.Text.Entity

/-!
# Printing a document

A document is printed with one element to a line, children one level deeper than their parent.
Elements without children are single tags, elements with nothing but text stay on one line, and
text is printed without the blanks around it. Declarations come before attributes.
-/

set_option autoImplicit false

namespace XmlCompare

/-- How a document is printed. The sizes have no bounds here. The program keeps them in words, and
stops where a margin would take more bytes than it can get, which are less than two to the power of
sixty-three. -/
structure PrintOptions where
  /-- Spaces for each level. -/
  indent : Nat := 2
  /-- Every namespace declaration has a line of its own. -/
  declarationsOnNewLine : Bool := false
  /-- The XML declaration is printed first. -/
  xmlDeclaration : Bool := true
  deriving DecidableEq, Repr, Inhabited

namespace PrintOptions

/-- The spaces in front of a line at some depth. -/
def margin (o : PrintOptions) (depth : Nat) : String :=
  String.ofList (List.replicate (o.indent * depth) ' ')

end PrintOptions

/-- The line that a printed document may begin with. -/
def xmlDeclarationLine : String := "<?xml version=\"1.0\" encoding=\"UTF-8\"?>\n"

/-- A name with its value in quotes. -/
def printAssignment (name value : String) : String :=
  name ++ "=\"" ++ Text.escape value ++ "\""

namespace Heading

/-- The attribute name that declares an abbreviation. -/
def declarationName (abbreviation : String) : String :=
  if abbreviation.isEmpty then "xmlns" else "xmlns:" ++ abbreviation

/-- The start of a tag, up to what closes it. -/
def print (o : PrintOptions) (depth : Nat) (h : Heading) : String :=
  let gap := if o.declarationsOnNewLine then "\n" ++ o.margin (depth + 1) else " "
  "<" ++ h.name
    ++ String.join (h.declarations.entries.map fun (abbreviation, uri) =>
      gap ++ printAssignment (declarationName abbreviation) uri)
    ++ String.join (h.attributes.values.map fun a => " " ++ printAssignment a.name a.value)

end Heading

/-- A comment on a line of its own. -/
def printComment (o : PrintOptions) (depth : Nat) (content : String) : String :=
  o.margin depth ++ "<!--" ++ content ++ "-->\n"

/-- An end tag with its line ending. -/
def printEnd (name : String) : String := "</" ++ name ++ ">\n"

mutual

/-- An element at a depth, with its children inside. -/
def Element.print (o : PrintOptions) (depth : Nat) : Element → String
  | .mk heading children =>
    let start := o.margin depth ++ heading.print o depth
    if children.isEmpty then start ++ "/>\n"
    else if children.all (·.text?.isSome) then
      start ++ ">" ++ Text.escapeText (Text.trimmed (String.join (children.filterMap Node.text?)))
        ++ printEnd heading.name
    else
      start ++ ">\n" ++ printNodes o (depth + 1) children ++ o.margin depth
        ++ printEnd heading.name
termination_by structural e => e

/-- The nodes inside an element, each on lines of its own. -/
def printNodes (o : PrintOptions) (depth : Nat) : List Node → String
  | [] => ""
  | .element e :: rest => e.print o depth ++ printNodes o depth rest
  | .text content :: rest =>
    o.margin depth ++ Text.escapeText (Text.trimmed content) ++ "\n" ++ printNodes o depth rest
  | .comment content :: rest => printComment o depth content ++ printNodes o depth rest
termination_by structural nodes => nodes

end

namespace Document

/-- A document: the declaration if it is wanted, the comments before the root, the root, and the
comments behind it. -/
def print (o : PrintOptions) (d : Document) : String :=
  (if o.xmlDeclaration then xmlDeclarationLine else "")
    ++ String.join (d.prolog.map (printComment o 0))
    ++ d.root.print o 0
    ++ String.join (d.epilog.map (printComment o 0))

/-- Reads a text as a document and prints it. -/
def format (o : PrintOptions) (text : String) : Except ParseError String :=
  (parse text).map (print o)

end Document

end XmlCompare
