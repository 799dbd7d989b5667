import XmlCompare.File.Basic

/-!
# Where files are kept

A run knows files by name. What a name leads to is a matter of the place where the run happens: a
name may begin at the root of all directories or climb out of this one, there may be links on the
way, and at its end there may be a device. A store of files tells what is read under a name and
which file a text under a name goes into, and nothing about how it finds out.
-/

set_option autoImplicit false

namespace XmlCompare

/-- Stores of files with names that lead to them. -/
class FileStore (Store : Type) where
  /-- What tells files apart, however they are named. -/
  Key : Type
  /-- The bytes of a file that is there. -/
  bytes? : Store → Key → Option ByteArray
  /-- The bytes that are found under a name. -/
  read : Store → String → Except FileFault ByteArray
  /-- The file that a text under a name goes into, be it there or to be made. There is none where
  texts go that are not kept. -/
  destination : Store → String → Except FileFault (Option Key)
  /-- The store with these bytes in one of its files. -/
  put : Store → Key → ByteArray → Store

namespace FileStore

variable {Store : Type} [FileStore Store]

/-- The text that is found under a name. -/
def readText (s : Store) (name : String) : Except FileFault String := do
  decodeText (← read s name)

/-- Puts a text under a name, in place of what was there. -/
def write (s : Store) (name text : String) : Except FileFault Store := do
  match ← destination s name with
  | some key => return put s key text.toUTF8
  | none => return s

end FileStore

end XmlCompare
