import XmlCompare.Line.Table
import XmlCompare.Markup.Fault

/-!
# Why a text is no document

Besides the faults of its markup, a text is no document if it has no root element or more than
one, if characters stand outside the root, or if an element is still open at its end.
-/

set_option autoImplicit false

namespace XmlCompare

/-- What keeps a text from being a document. -/
inductive DocumentFault
  | markup (fault : Markup.SyntaxFault)
  | encoding (fault : Markup.EncodingFault)
  | unclosedElement (name : String)
  | emptyDocument
  | multipleRoots
  | textOutsideRoot
  deriving DecidableEq, Repr

/-- What is said about a text that is no document. -/
def DocumentFault.message : DocumentFault → String
  | .markup fault => fault.message
  | .encoding fault => fault.message
  | .unclosedElement name => "unclosed element <" ++ name ++ ">"
  | .emptyDocument => "no root element"
  | .multipleRoots => "multiple root elements"
  | .textOutsideRoot => "text outside the root element"

/-- A document fault with the place where it was found. -/
structure ParseError where
  fault : DocumentFault
  location : Location
  deriving DecidableEq, Repr

/-- What is said about a text that cannot be read, and where. -/
def ParseError.message (e : ParseError) : String :=
  "XML parse error: " ++ e.fault.message ++ " at line " ++ toString e.location.line
    ++ ", column " ++ toString e.location.column

end XmlCompare
