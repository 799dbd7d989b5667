import XmlCompare.Text.Cut

/-!
# A place in a text

A cursor stands somewhere in a text: it knows its byte offset and what is left to read.
-/

set_option autoImplicit false

namespace XmlCompare.Text

/-- A byte offset and the characters from there on. -/
structure Cursor where
  offset : Nat
  rest : List Char
  deriving DecidableEq, Repr

namespace Cursor

/-- Moves behind the longest run of characters with a property. -/
def skip (p : Char → Bool) (c : Cursor) : Cursor :=
  ⟨c.offset + byteSize (c.rest.takeWhile p), c.rest.dropWhile p⟩

/-- The cursor that stands before `rest` when `consumed` has been read from `c` on. -/
def past (c : Cursor) (consumed rest : List Char) : Cursor :=
  ⟨c.offset + byteSize consumed, rest⟩

/-- A skip leaves no more than there was. -/
theorem length_skip_le (p : Char → Bool) (c : Cursor) :
    (c.skip p).rest.length ≤ c.rest.length :=
  (List.dropWhile_sublist p).length_le

end Cursor

end XmlCompare.Text
