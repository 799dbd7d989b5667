/-!
# Files

A file is known by its bytes, and holds a text if they are UTF-8. What can go wrong on the way to
a text is a file fault.
-/

set_option autoImplicit false

namespace XmlCompare

/-- Why a file gives no text or takes none. -/
inductive FileFault
  /-- Nothing has this name, or a directory on the way to it does not exist. -/
  | missing
  /-- Something on the way is a file and no directory. -/
  | notDirectory
  | isDirectory
  /-- The name is longer than names can be. -/
  | nameTooLong
  | notText
  /-- The file cannot be used for a reason that lies outside. -/
  | refused (reason : String)
  deriving DecidableEq, Repr

/-- What is said about a file that cannot be read or written. -/
def FileFault.message : FileFault → String
  | .missing => "No such file or directory (os error 2)"
  | .notDirectory => "Not a directory (os error 20)"
  | .isDirectory => "Is a directory (os error 21)"
  | .nameTooLong => "File name too long (os error 36)"
  | .notText => "stream did not contain valid UTF-8"
  | .refused reason => reason

/-- The text that the bytes of a file hold. -/
def decodeText (bytes : ByteArray) : Except FileFault String :=
  match String.fromUTF8? bytes with
  | some text => .ok text
  | none => .error .notText

end XmlCompare
