import XmlCompare.Document.Event
import XmlCompare.Path.Text

/-!
# The lines of every element

A position index says for every element of a text, by its path, which lines it covers. It is read
off the events, without building the document.
-/

set_option autoImplicit false

namespace XmlCompare

/-- The lines of the elements of a text, by path. -/
structure PositionIndex where
  entries : Dictionary Path LineRange
  deriving DecidableEq

namespace PositionIndex

/-- What an event says about lines: an element that closes covers some. -/
def entry? : Event → Option (Path × LineRange)
  | .closed e => some (e.path, e.lines)
  | .opened _ => none
  | .text _ => none
  | .comment _ => none

/-- The lines of the elements that some events close, by path. -/
def ofEvents (events : List Event) : PositionIndex := ⟨.ofList (events.filterMap entry?)⟩

/-- Reads the index of a text, or finds the first thing that keeps it from being a document. -/
def build (text : String) : Except ParseError PositionIndex :=
  (Event.readAll text).toExcept.map ofEvents

/-- The lines of the element at a path. -/
def get? (index : PositionIndex) (path : Path) : Option LineRange := index.entries.get? path

/-- The lines of the element at a path in its text form; a text that is no path leads nowhere. -/
def lookup (index : PositionIndex) (path : String) : Option LineRange :=
  match Path.parse path with
  | .ok path => index.get? path
  | .error _ => none

/-- The number of elements. -/
def size (index : PositionIndex) : Nat := index.entries.size

/-- There is no element. -/
def isEmpty (index : PositionIndex) : Bool := index.entries.entries.isEmpty

/-- Entries are listed by first line, of those on one line the shorter paths first, and then in
the order of paths. -/
def compareEntries (a b : Path × LineRange) : Ordering :=
  (compare a.2.first b.2.first).then
    ((compare a.1.depth b.1.depth).then (Path.compare a.1 b.1))

/-- The entries by first line, then by depth, then by path. -/
def sorted (index : PositionIndex) : List (Path × LineRange) :=
  index.entries.entries.mergeSort fun a b => (compareEntries a b).isLE

end PositionIndex

end XmlCompare
