import XmlCompare.Text.Cut

/-!
# Qualified names

A name in a document may carry a namespace abbreviation, which ends at the first colon. Names are
not checked: either part may be empty, and the local part may hold further colons.
-/

set_option autoImplicit false

namespace XmlCompare.Name

/-- The part before the first colon, if there is a colon, and the local part. -/
def split (name : String) : Option String × String :=
  match Text.cutAt ':' name.toList with
  | some (before, after) => (some (String.ofList before), String.ofList after)
  | none => (none, name)

/-- The local part of a name: what follows its first colon, or the whole name. -/
def localPart (name : String) : String := (split name).2

/-- The abbreviation that an attribute of this name declares: `xmlns` declares the empty one,
which stands for the default namespace. Other names declare nothing. -/
def declares? (name : String) : Option String :=
  if name = "xmlns" then some ""
  else (Text.dropStart? "xmlns:".toList name.toList).map String.ofList

end XmlCompare.Name
