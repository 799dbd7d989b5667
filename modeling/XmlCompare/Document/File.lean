import XmlCompare.Document.Tree
import XmlCompare.File.Basic
import XmlCompare.Line.Edit

/-!
# Documents in files

Reading a document from a file can fail for the file's sake or for the document's, and editing a
text for the range of lines.
-/

set_option autoImplicit false

namespace XmlCompare

/-- Why an operation on files and documents fails. -/
inductive Failure
  | file (fault : FileFault)
  | parse (error : ParseError)
  | range (fault : Line.RangeFault)
  deriving DecidableEq, Repr

/-- What is said about a file that cannot be read as a document. -/
def Failure.message : Failure → String
  | .file fault => "I/O error: " ++ fault.message
  | .parse error => error.message
  | .range fault => fault.message

/-- Reads a document from a file, given what came of reading its bytes. -/
def Document.ofFile (bytes : Except FileFault ByteArray) : Except Failure Document := do
  let text ← (bytes.bind decodeText).mapError .file
  (Document.parse text).mapError .parse

end XmlCompare
