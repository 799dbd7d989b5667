import XmlCompare.Document.Error
import XmlCompare.Line.Range
import XmlCompare.Markup.Token
import XmlCompare.Path.Basic
import XmlCompare.Path.Ordinal

/-!
# Element events

The tokens of a text become events: an element opens, an element closes, there is text or a
comment. This is the one place where elements get their paths and their lines, so whatever is made
of the events agrees on both.

An element begins on the line of the `<` of its start tag and ends on the line of the `>` of its
end tag; one that is a single tag ends on the line where it begins. Text outside the root element
must be blank and makes no event.
-/

set_option autoImplicit false

namespace XmlCompare

open Markup (PlacedToken PlacedFault)

/-- An element that opens: its name and attributes as they are written, its path, and the line of
its tag. -/
structure OpenedElement where
  name : String
  attributes : List (String × String)
  path : Path
  line : Nat
  deriving DecidableEq

/-- An element that closes, with the lines it covers. -/
structure ClosedElement where
  path : Path
  lines : LineRange
  deriving DecidableEq

/-- What happens in the course of a document. -/
inductive Event
  | opened (element : OpenedElement)
  | closed (element : ClosedElement)
  | text (content : String)
  | comment (content : String)
  deriving DecidableEq

namespace Event

/-- An element that is open: what is needed when it closes. -/
structure Frame where
  name : String
  path : Path
  line : Nat
  deriving DecidableEq

/-- How far a document has been followed: the open elements, innermost first, the sibling counts,
and whether there has been a root. -/
structure State where
  frames : List Frame
  counts : SiblingCounts
  seenRoot : Bool
  deriving DecidableEq

/-- Nothing has been read: no element is open, and there is no root yet. -/
def State.initial : State := ⟨[], .document, false⟩

/-- A fault at the place of a byte. -/
def errorAt (lines : LineTable) (offset : Nat) (fault : DocumentFault) : ParseError :=
  ⟨fault, lines.location offset⟩

namespace State

/-- The path of the innermost open element, or of the document. -/
def path (s : State) : Path :=
  match s.frames with
  | [] => .document
  | frame :: _ => frame.path

/-- Opens the element of a tag that begins at `start`. -/
def enter (s : State) (lines : LineTable) (start : Nat) (content : List Char) :
    Except ParseError (State × OpenedElement) :=
  if s.frames.isEmpty && s.seenRoot then .error (errorAt lines start .multipleRoots)
  else
    match Markup.Tag.attributes content with
    | .error fault => .error (errorAt lines start (.encoding fault))
    | .ok attributes =>
      let name := String.ofList (Markup.Tag.name content)
      let ordinal := s.counts.next (Name.localPart name)
      let path := s.path.child name ordinal
      let line := lines.line start
      .ok (⟨⟨name, path, line⟩ :: s.frames, s.counts.enter (Name.localPart name), true⟩,
        ⟨name, attributes, path, line⟩)

/-- Closes the innermost open element; `stop` is the offset whose line is its last. -/
def leave (s : State) (lines : LineTable) (stop : Nat) :
    Except ParseError (State × ClosedElement) :=
  match s.frames with
  | [] => .error (errorAt lines stop (.markup .strayEndTag))
  | frame :: frames =>
    .ok ({ s with frames := frames, counts := s.counts.leave },
      ⟨frame.path, .between frame.line (max (lines.line stop) frame.line)⟩)

/-- Text inside an element is an event; outside it has to be blank. -/
def characters (s : State) (lines : LineTable) (start : Nat) (content : List Char) :
    Except ParseError (List Event) :=
  if !s.frames.isEmpty then .ok [.text (String.ofList content)]
  else if content.all Text.isBlank then .ok []
  else .error (errorAt lines start .textOutsideRoot)

/-- The events of one token. -/
def step (s : State) (lines : LineTable) (t : PlacedToken) :
    Except ParseError (State × List Event) :=
  match t.token with
  | .startTag content => do
    let (s, element) ← s.enter lines t.start content
    return (s, [.opened element])
  | .emptyTag content => do
    let (s, element) ← s.enter lines t.start content
    let (s, ended) ← s.leave lines t.start
    return (s, [.opened element, .closed ended])
  | .endTag _ => do
    let (s, ended) ← s.leave lines (t.stop - 1)
    return (s, [.closed ended])
  | .text raw =>
    match Text.unescape raw with
    | .error fault => .error (errorAt lines t.start (.encoding (.entity fault)))
    | .ok content => do
      let events ← s.characters lines t.start content
      return (s, events)
  | .cdata content => do
    let events ← s.characters lines t.start content
    return (s, events)
  | .comment body => .ok (s, [.comment (String.ofList body)])
  | .skipped => .ok (s, [])

/-- What is wrong when the text ends here, at byte `stop`. -/
def finish? (s : State) (lines : LineTable) (stop : Nat) : Option ParseError :=
  match s.frames with
  | frame :: _ => some (errorAt lines stop (.unclosedElement frame.name))
  | [] => if s.seenRoot then none else some (errorAt lines stop .emptyDocument)

end State

/-- The events of a reading of tokens that ends at byte `stop`. -/
def ofTokens (lines : LineTable) (stop : Nat) (s : State) :
    Reading PlacedToken PlacedFault → Reading Event ParseError
  | .done =>
    match s.finish? lines stop with
    | none => .done
    | some error => .failed error
  | .failed fault => .failed (errorAt lines fault.offset (.markup fault.fault))
  | .item t rest =>
    match s.step lines t with
    | .error error => .failed error
    | .ok (s, events) => (ofTokens lines stop s rest).prepend events

/-- The events of a text. -/
def readAll (text : String) : Reading Event ParseError :=
  ofTokens (.ofText text) (Text.byteSize (Markup.Token.dropByteOrderMark text.toList)) .initial
    (Markup.Token.readAll text)

end Event

end XmlCompare
