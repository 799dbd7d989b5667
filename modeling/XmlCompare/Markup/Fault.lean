import XmlCompare.Text.Entity

/-!
# What can be wrong with markup

A fault is a cause; its wording is in one function per kind. Syntax faults concern the shape of
the markup, encoding faults the attributes of a tag and the references in a text.
-/

set_option autoImplicit false

namespace XmlCompare.Markup

/-- Faults in the shape of the markup. Names are shown as they stand in the text. -/
inductive SyntaxFault
  | tagNotClosed
  | unknownMarkup
  | commentNotClosed
  | cdataNotClosed
  | doctypeNotClosed
  | instructionNotClosed
  | doctypeWithoutName
  | mismatchedEndTag (expected found : String)
  | unmatchedEndTag (name : String)
  | strayEndTag
  deriving DecidableEq, Repr

/-- Faults in the attributes of a tag; positions count bytes from behind the `<`. -/
inductive AttributeFault
  | expectedEquals (position : Nat)
  | expectedValue (position : Nat)
  | unquotedValue (position : Nat)
  | missingQuote (position : Nat) (quote : Char)
  | duplicated (position earlier : Nat)
  deriving DecidableEq, Repr

/-- Faults in what a tag or a text holds. -/
inductive EncodingFault
  | attribute (fault : AttributeFault)
  | entity (fault : Text.EntityFault)
  deriving DecidableEq, Repr

/-- What is said about markup that does not close, or closes something else. -/
def SyntaxFault.message : SyntaxFault → String
  | .tagNotClosed => "syntax error: tag not closed: `>` not found before end of input"
  | .unknownMarkup => "syntax error: unknown or missed symbol in markup"
  | .commentNotClosed => "syntax error: comment not closed: `-->` not found before end of input"
  | .cdataNotClosed =>
    "syntax error: CDATA not closed: `]]>` not found before end of input"
  | .doctypeNotClosed => "syntax error: DOCTYPE not closed: `>` not found before end of input"
  | .instructionNotClosed =>
    "syntax error: processing instruction or xml declaration not closed: "
      ++ "`?>` not found before end of input"
  | .doctypeWithoutName =>
    "ill-formed document: `<!DOCTYPE>` declaration does not contain a name of a document type"
  | .mismatchedEndTag expected found =>
    "ill-formed document: expected `</" ++ expected ++ ">`, but `</" ++ found ++ ">` was found"
  | .unmatchedEndTag name =>
    "ill-formed document: close tag `</" ++ name ++ ">` does not match any open tag"
  | .strayEndTag => "end tag without a matching start tag"

/-- What is said about an attribute that cannot be read. -/
def AttributeFault.message : AttributeFault → String
  | .expectedEquals position =>
    "position " ++ toString position ++ ": attribute key must be directly followed by `=` or space"
  | .expectedValue position =>
    "position " ++ toString position ++ ": `=` must be followed by an attribute value"
  | .unquotedValue position =>
    "position " ++ toString position ++ ": attribute value must be enclosed in `\"` or `'`"
  | .missingQuote position quote =>
    "position " ++ toString position ++ ": missing closing quote `" ++ quote.toString
      ++ "` in attribute value"
  | .duplicated position earlier =>
    "position " ++ toString position ++ ": duplicated attribute, previous declaration at position "
      ++ toString earlier

/-- What is said about a tag or a text that cannot be resolved. -/
def EncodingFault.message : EncodingFault → String
  | .attribute fault => fault.message
  | .entity fault => fault.message

end XmlCompare.Markup
