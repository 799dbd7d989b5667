import XmlCompare.Command.Run

/-!
# The program

Reads the files that the command line names, answers the request, delivers what is to be
delivered, and prints.
-/

set_option autoImplicit false

namespace XmlCompare

/-- The file fault behind an error of the system, told by its number where the kind of error does
not tell it. -/
def faultOf (error : IO.Error) : FileFault :=
  match error with
  | .noFileOrDirectory .. => .missing
  | .inappropriateType _ code _ => ofCode code
  | _ => .refused (toString error)
where
  /-- The number comes with either sign. Twenty means that a name leads through a file,
  twenty-one that it leads to a directory. -/
  ofCode (code : UInt32) : FileFault :=
    let number := min code (0 - code)
    if number = 20 then .notDirectory
    else if number = 21 then .isDirectory
    else .refused (toString error)

/-- Reads a file as text. -/
def readFile (name : String) : IO (Except FileFault String) :=
  try
    return decodeText (← IO.FS.readBinFile name)
  catch error =>
    return .error (faultOf error)

/-- Delivers what an answer has for a file; if that cannot be done, the answer is that. -/
def deliverTo (answer : Answer) : IO Answer :=
  match answer.delivery with
  | none => return answer
  | some (name, text) =>
    try
      IO.FS.writeBinFile name text.toUTF8
      return answer
    catch error =>
      return .failed (faultOf error).message 1

end XmlCompare

open XmlCompare in
/-- Runs the program on its arguments. -/
def main (arguments : List String) : IO UInt32 := do
  match Request.ofArguments arguments with
  | .error fault =>
    IO.eprintln ("error: " ++ fault.message)
    return 2
  | .ok request =>
    let mut texts : List (String × Except FileFault String) := []
    for name in request.inputs do
      texts := (name, ← readFile name) :: texts
    let read := texts
    let answer ← deliverTo (request.answer fun name => (read.lookup name).getD (.error .missing))
    IO.print answer.output
    IO.eprint answer.errors
    return UInt32.ofNat answer.status
