import XmlCompare.Document.File
import XmlCompare.Document.Printer
import XmlCompare.Report.Block
import XmlCompare.Report.Verdict

/-!
# Working on a control text

In a session a control text is verified, edited and verified again. The session keeps the findings
of the last verdict; they are not moved by edits, so after an edit the text has to be verified
anew.
-/

set_option autoImplicit false

namespace XmlCompare

/-- A control text with the findings of the last verdict on it. -/
structure Session where
  text : String
  findings : List Finding
  deriving DecidableEq, Repr

namespace Session

/-- Begins anew with a text that has not been verified. -/
def load (text : String) : Session := ⟨text, []⟩

/-- Verifies a test text and keeps the findings. Selectors may be given or left at the standard
ones. -/
def verify (s : Session) (selectors : Option (List Selector)) (test : String) :
    Except ParseError (Verdict × Session) :=
  let verdict : Except ParseError Verdict :=
    match selectors with
    | none => .ok (XmlCompare.verify s.text test)
    | some selectors => verifyWith selectors s.text test
  verdict.map fun v => (v, { s with findings := v.findings })

/-- The blocks of the text with the findings that are kept. -/
def blocks (s : Session) : List Block := Block.group (Line.linesOf s.text).length s.findings

/-- Replaces some lines of the text; the findings stay as they were. -/
def edit (s : Session) (first last : Nat) (replacement : String) : Except Failure Session :=
  match Line.replaceLines s.text first last replacement with
  | .error fault => .error (.range fault)
  | .ok text => .ok { s with text }

/-- Replaces the lines of a finding that is kept. -/
def fix (s : Session) (f : Finding) (replacement : String) : Except Failure Session :=
  s.edit f.firstLine f.lastLine replacement

/-- Prints the text anew; the findings stay as they were. -/
def format (s : Session) (o : PrintOptions) : Except Failure Session :=
  match Document.format o s.text with
  | .error error => .error (.parse error)
  | .ok text => .ok { s with text }

end Session

end XmlCompare
