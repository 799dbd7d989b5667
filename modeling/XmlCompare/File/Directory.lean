import XmlCompare.Dictionary
import XmlCompare.File.Store

/-!
# The files of a directory

A directory holds files, in itself and in directories inside it. A file name is followed from the
directory component by component: a dot stays, two dots go up, everything else has to be there,
except that the last component of a name may be vacant when a file is to be made. Of what is
around the directory nothing is known: nothing is found there but the null device, and what is put
there is out of sight.

So a directory is a store of files, one of many, in which all can be computed.
-/

set_option autoImplicit false

namespace XmlCompare

-- More than one library can compare byte arrays; files are compared by the one that defines them.
local instance decEqBytes : DecidableEq ByteArray := ByteArray.instDecidableEq

/-- Files with their bytes, by the components of their names. A directory inside this one exists
if it has a file. -/
structure Directory where
  files : Dictionary (List String) ByteArray
  deriving DecidableEq

namespace Directory

/-- What a file name leads to. -/
inductive Place
  /-- A directory that is this one or inside it. -/
  | directory (steps : List String)
  /-- A directory around this one. -/
  | outside
  /-- Nothing, in a directory around this one. -/
  | vacantOutside
  /-- A file. -/
  | file (steps : List String)
  /-- Nothing, in a directory that exists. -/
  | vacant (steps : List String)
  /-- The device that is always empty. -/
  | null
  deriving DecidableEq, Repr

/-- Names take fewer bytes than this. -/
def nameLimit : Nat := 4096

/-- A component of a name takes at most this number of bytes. -/
def componentLimit : Nat := 255

/-- The components of a name, with empty ones where slashes stand side by side or at an end. -/
def components (name : String) : List String :=
  (name.toList.splitOn '/').map String.ofList

/-- There is a directory with these components. -/
def hasDirectory (d : Directory) (steps : List String) : Bool :=
  steps.isEmpty || d.files.keys.any fun key => steps.isPrefixOf key && steps.length < key.length

/-- What has these components in a directory that exists. -/
def entry (d : Directory) (steps : List String) : Place :=
  if (d.files.get? steps).isSome then .file steps
  else if d.hasDirectory steps then .directory steps
  else .vacant steps

/-- Goes on from a place by one component of a name. -/
def follow (d : Directory) (place : Place) (component : String) : Except FileFault Place :=
  match place with
  | .directory steps =>
    if component = "" ∨ component = "." then .ok place
    else if component = ".." then
      .ok (if steps.isEmpty then .outside else .directory steps.dropLast)
    else if component.utf8ByteSize > componentLimit then .error .nameTooLong
    else .ok (d.entry (steps ++ [component]))
  | .outside =>
    if component = "" ∨ component = "." ∨ component = ".." then .ok .outside
    else if component.utf8ByteSize > componentLimit then .error .nameTooLong
    else .ok .vacantOutside
  | .file _ => .error .notDirectory
  | .null => .error .notDirectory
  | .vacant _ => .error .missing
  | .vacantOutside => .error .missing

/-- What a name leads to. A name that begins with a slash begins outside. -/
def locate (d : Directory) (name : String) : Except FileFault Place :=
  if name = "" then .error .missing
  else if name.utf8ByteSize ≥ nameLimit then .error .nameTooLong
  else if name = "/dev/null" then .ok .null
  else
    match components name with
    | "" :: rest => rest.foldlM d.follow .outside
    | all => all.foldlM d.follow (.directory [])

/-- The bytes of the file under a name. -/
def read (d : Directory) (name : String) : Except FileFault ByteArray := do
  match ← d.locate name with
  | .file steps =>
    match d.files.get? steps with
    | some bytes => return bytes
    | none => throw .missing
  | .vacant _ => throw .missing
  | .vacantOutside => throw .missing
  | .directory _ => throw .isDirectory
  | .outside => throw .isDirectory
  | .null => return .empty

/-- A name without the slashes at its end. -/
def dropSlashes (name : String) : String :=
  String.ofList ((name.toList.reverse.dropWhile (· = '/')).reverse)

/-- Where a text under a name goes. A name that ends with a slash means a directory. -/
def target (d : Directory) (name : String) : Except FileFault Place :=
  if name.toList.getLast? = some '/' && dropSlashes name ≠ "" then do
    let _ ← d.locate (dropSlashes name)
    throw .isDirectory
  else d.locate name

/-- The file that a text under a name goes into. Around the directory and in the device that is
always empty texts are not kept. -/
def destination (d : Directory) (name : String) : Except FileFault (Option (List String)) := do
  match ← d.target name with
  | .file steps => return some steps
  | .vacant steps => return some steps
  | .directory _ => throw .isDirectory
  | .outside => throw .isDirectory
  | .vacantOutside => return none
  | .null => return none

/-- The directory with these bytes in one of its files. -/
def withFile (d : Directory) (key : List String) (bytes : ByteArray) : Directory :=
  ⟨d.files.insert key bytes⟩

instance : FileStore Directory where
  Key := List String
  bytes? d key := d.files.get? key
  read := read
  destination := destination
  put := withFile

/-- The text that is found under a name. -/
abbrev readText (d : Directory) (name : String) : Except FileFault String :=
  FileStore.readText d name

/-- The directory with some files, given by their names and bytes. -/
def ofFiles (files : List (String × ByteArray)) : Directory :=
  ⟨.ofList (files.map fun (name, bytes) =>
    ((components name).filter fun c => c ≠ "" && c ≠ ".", bytes))⟩

end Directory

end XmlCompare
