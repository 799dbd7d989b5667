import XmlCompare.Dictionary
import XmlCompare.Name.Qualified

/-!
# Namespace scopes

Every open element has a scope of namespace declarations. An abbreviation means what the
innermost scope that declares it says; the outermost scope belongs to the document and declares
`xml`. An expanded name is a local name with the address of its namespace, and two names are the
same when these two are, whatever abbreviation was written.
-/

set_option autoImplicit false

namespace XmlCompare

/-- A name with the namespace it belongs to; an empty address means no namespace. -/
structure ExpandedName where
  uri : String
  localName : String
  deriving DecidableEq, Repr, Inhabited

namespace ExpandedName

/-- A name that belongs to no namespace. -/
def bare (localName : String) : ExpandedName := ⟨"", localName⟩

/-- An expanded name as it is shown: the address in braces, if there is one, before the name. -/
def text (n : ExpandedName) : String :=
  if n.uri.isEmpty then n.localName else "\x7b" ++ n.uri ++ "\x7d" ++ n.localName

end ExpandedName

/-- The declarations of one scope: what each abbreviation stands for. -/
abbrev Declarations := Dictionary String String

/-- The scopes in force: that of the innermost open element, and those around it from the inside
out. -/
structure Scopes where
  inner : Declarations
  outer : List Declarations
  deriving DecidableEq

namespace Scopes

/-- The namespace that the abbreviation `xml` is bound to from the start. -/
def xmlNamespace : String := "http://www.w3.org/XML/1998/namespace"

/-- The scope of the document alone. -/
def document : Scopes := ⟨Dictionary.empty.insert "xml" xmlNamespace, []⟩

instance : Inhabited Scopes := ⟨document⟩

/-- Binds an abbreviation in the innermost scope. -/
def bind (s : Scopes) (abbreviation uri : String) : Scopes :=
  { s with inner := s.inner.insert abbreviation uri }

/-- Opens the scope of an element and binds its declarations in order. -/
def enter (s : Scopes) (declarations : List (String × String)) : Scopes :=
  ⟨Dictionary.ofList declarations, s.inner :: s.outer⟩

/-- Closes the innermost scope; the scope of the document stays open. -/
def leave (s : Scopes) : Scopes :=
  match s.outer with
  | [] => s
  | inner :: outer => ⟨inner, outer⟩

/-- The namespace that an abbreviation stands for in the innermost scope that binds it. -/
def resolve (s : Scopes) (abbreviation : String) : Option String :=
  (s.inner :: s.outer).findSome? (·.get? abbreviation)

/-- The expanded name of a name that was written with an abbreviation. One that is bound nowhere
means no namespace. -/
def expand (s : Scopes) (abbreviation localName : String) : ExpandedName :=
  match s.resolve abbreviation with
  | some uri => ⟨uri, localName⟩
  | none => .bare localName

/-- The expanded name of an element: without an abbreviation it is in the default namespace. -/
def elementName (s : Scopes) (name : String) : ExpandedName :=
  match Name.split name with
  | (some abbreviation, localName) => s.expand abbreviation localName
  | (none, localName) => s.expand "" localName

/-- The expanded name of an attribute: without an abbreviation it is in no namespace. -/
def attributeName (s : Scopes) (name : String) : ExpandedName :=
  match Name.split name with
  | (some abbreviation, localName) => s.expand abbreviation localName
  | (none, localName) => .bare localName

/-- Closing a scope undoes opening it. -/
@[simp] theorem leave_enter (s : Scopes) (declarations : List (String × String)) :
    (s.enter declarations).leave = s := rfl

end Scopes

end XmlCompare
