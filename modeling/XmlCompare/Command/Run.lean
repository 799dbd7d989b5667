import XmlCompare.Command.Basic
import XmlCompare.Document.Index
import XmlCompare.File.Store
import XmlCompare.Line.Edit
import XmlCompare.Report.Block
import XmlCompare.Report.Verdict

/-!
# Running commands

A command is run on what its files give, and comes to an answer: what it prints, its exit status,
and at most one text to be delivered to the file that is named for it. `Request.execute` answers a
request in a store of files and delivers there; nothing is delivered unless everything that was read
is in order.

The status is zero when nothing is wrong, one when something is found or the command fails, and
two when a comparison comes upon a text that is no document.
-/

set_option autoImplicit false

namespace XmlCompare

/-- What a command comes to. -/
structure Answer where
  status : Nat
  output : String
  errors : String
  /-- A text to be delivered, with the name of the file it is for. -/
  delivery : Option (String × String)
  deriving DecidableEq, Repr

namespace Answer

/-- An answer that writes to the output only. -/
def printed (status : Nat) (output : String) : Answer := ⟨status, output, "", none⟩

/-- What a command reports in case it cannot do its work. -/
def failed (message : String) (status : Nat) : Answer :=
  ⟨status, "", "Error: " ++ message ++ "\n", none⟩

end Answer

namespace Command

/-- What came of reading files, by name. -/
abbrev Texts := String → Except FileFault String

/-- Lines put together, each with its ending. -/
def printLines (lines : List String) : String := String.join (lines.map (· ++ "\n"))

/-- Answers with the help of the text of a file. -/
def withText (texts : Texts) (name : String) (answer : String → Answer) : Answer :=
  match texts name with
  | .error fault => .failed fault.message 1
  | .ok text => answer text

/-- Prints a result, or delivers it to the file that is named for it. -/
def deliver (output : Option String) (text : String) : Answer :=
  match output with
  | none => .printed 0 text
  | some name => ⟨0, "", "", some (name, text)⟩

/-- Lists the elements of a text with their lines, or looks up one. -/
def runIndex (text : String) (path : Option String) : Answer :=
  match PositionIndex.build text with
  | .error error => .failed error.message 1
  | .ok positions =>
    match path with
    | none =>
      .printed 0
        (printLines (positions.sorted.map fun (path, lines) => path.text ++ "\t" ++ lines.text))
    | some path =>
      match positions.lookup path with
      | some lines => .printed 0 (printLines [path ++ "\t" ++ lines.text])
      | none => ⟨1, "", printLines ["No element at " ++ path], none⟩

/-- Compares two texts and lists the differences. -/
def runDiff (control test : String) : Answer :=
  match compareTexts Selector.standard control test with
  | .same => .printed 0 ""
  | .different differences => .printed 1 (printLines (differences.map Difference.text))
  | .malformed cause => .failed cause.message 2

/-- The number of a line, with blanks in front up to a width of five. -/
def lineNumber (n : Nat) : String := String.ofList ((toString n).toList.leftpad 5 ' ')

/-- The lines that show a block of a text: each line with its number, marked if a finding covers
it, and the details of the finding after them. -/
def showBlock (text : String) (b : Block) : List String :=
  let mark := if b.finding.isSome then "!" else " "
  (b.lines text).zipIdx.map (fun (line, offset) =>
      mark ++ lineNumber (b.firstLine + offset) ++ " | " ++ line)
    ++ (b.finding.map fun f => "       = " ++ f.details).toList

/-- Shows findings one to a line, or the text they concern in blocks. -/
def showFindings (control : String) (findings : List Finding) (blocks : Bool) : List String :=
  if blocks then
    (Block.group (Line.linesOf control).length findings).flatMap (showBlock control)
  else findings.map Finding.text

/-- The verdict on two texts. A control text that is not blank must be a document even if the test
text is blank. -/
def reportVerdict (control test : String) : Verdict :=
  if Text.isBlankText control then verify control test
  else
    match Snapshot.ofText control with
    | .error error => .malformed ⟨.control, error⟩
    | .ok snapshot => snapshot.verify Selector.standard test

/-- Verifies a text against another one and lists the findings, or the blocks of the text. -/
def runReport (control test : String) (blocks : Bool) : Answer :=
  match reportVerdict control test with
  | .valid => .printed 0 (printLines ["valid"])
  | .invalid findings => .printed 1 (printLines (showFindings control findings blocks))
  | .malformed cause => .failed cause.message 2

/-- Delivers a printed document. -/
def runFormat (text : String) (output : Option String) (options : PrintOptions) : Answer :=
  match Document.format options text with
  | .error error => .failed error.message 1
  | .ok printed => deliver output printed

/-- Delivers a text that came of an edit. -/
def runEdit (edited : Except Line.RangeFault String) (output : Option String) : Answer :=
  match edited with
  | .error fault => .failed fault.message 1
  | .ok edited => deliver output edited

/-- What a command comes to, given what its files hold. -/
def answer (texts : Texts) : Command → Answer
  | .index file path => withText texts file fun text => runIndex text path
  | .diff control test =>
    withText texts control fun control => withText texts test fun test => runDiff control test
  | .report control test blocks =>
    withText texts control fun control =>
      withText texts test fun test => runReport control test blocks
  | .format file output options =>
    withText texts file fun text => runFormat text output options
  | .replace file first last replacement output =>
    withText texts file fun text =>
      withText texts replacement fun replacement =>
        runEdit (Line.replaceLines text first last replacement) output
  | .remove file first last output =>
    withText texts file fun text => runEdit (Line.removeLines text first last) output

/-- The files that a command reads, in order. -/
def inputs : Command → List String
  | .index file _ => [file]
  | .diff control test => [control, test]
  | .report control test _ => [control, test]
  | .format file _ _ => [file]
  | .replace file _ _ replacement _ => [file, replacement]
  | .remove file _ _ _ => [file]

end Command

/-- What a run leaves behind, with the store of files in which it happened. -/
structure Execution (Store : Type) where
  status : Nat
  output : String
  errors : String
  store : Store
  deriving DecidableEq

section Store

variable {Store : Type} [FileStore Store]

/-- Delivers what an answer has for a file. If that cannot be done the run fails. -/
def Answer.execute (s : Store) (a : Answer) : Execution Store :=
  match a.delivery with
  | none => ⟨a.status, a.output, a.errors, s⟩
  | some (name, text) =>
    match FileStore.write s name text with
    | .ok after => ⟨a.status, a.output, a.errors, after⟩
    | .error fault =>
      let failure := Answer.failed fault.message 1
      ⟨failure.status, failure.output, failure.errors, s⟩

end Store

namespace Request

/-- The name and the version of the program. -/
def versionText : String := "spandiff 0.1.0\n"

/-- What the program says about its usage. -/
def helpText : String :=
  "Structural XML diff with source line attribution\n\n"
    ++ "Usage: spandiff [-v]... COMMAND\n\n"
    ++ "Commands:\n"
    ++ "  index FILE [-p PATH]                print the lines of every element, or of one\n"
    ++ "  diff CONTROL TEST                   list the differences of two documents\n"
    ++ "  report CONTROL TEST [-b]            report differences on lines of the control document\n"
    ++ "  format FILE [-o FILE] [--indent N] [--namespaces-on-new-line]\n"
    ++ "                                      print a document re-indented\n"
    ++ "  fix FILE -s LINE -e LINE (--with FILE | --remove) [-o FILE]\n"
    ++ "                                      replace or remove a range of lines\n"

/-- The files that a request reads, in order. -/
def inputs : Request → List String
  | .help => []
  | .version => []
  | .command c => c.inputs

/-- What a request comes to, given what its files hold. -/
def answer (texts : Command.Texts) : Request → Answer
  | .help => .printed 0 helpText
  | .version => .printed 0 versionText
  | .command c => c.answer texts

/-- Does what is asked for, in a store of files. -/
def execute {Store : Type} [FileStore Store] (s : Store) (r : Request) : Execution Store :=
  (r.answer (FileStore.readText s)).execute s

end Request

end XmlCompare
