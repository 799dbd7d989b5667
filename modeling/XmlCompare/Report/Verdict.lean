import XmlCompare.Compare.Comparison
import XmlCompare.Report.Finding

/-!
# Verdicts

A test text is verified against a control text: it is valid when the comparison leads to no
finding. A snapshot keeps a control text together with its index, so that paths are looked up in
the index of the very text they come from.
-/

set_option autoImplicit false

namespace XmlCompare

/-- What comes out of verifying a text. -/
inductive Verdict
  | valid
  /-- Something does; the list is not empty. -/
  | invalid (findings : List Finding)
  /-- One of the texts is no document. -/
  | malformed (cause : Malformed)
  deriving DecidableEq, Repr

namespace Verdict

/-- The verdict is that nothing is wrong. -/
def isValid : Verdict → Bool
  | valid => true
  | invalid _ => false
  | malformed _ => false

/-- What a verdict finds wrong. -/
def findings : Verdict → List Finding
  | valid => []
  | invalid findings => findings
  | malformed _ => []

end Verdict

/-- A control text with its index. -/
structure Snapshot where
  text : String
  index : PositionIndex
  deriving DecidableEq

namespace Snapshot

/-- Indexes a text, or finds the first thing that keeps it from being a document. -/
def ofText (text : String) : Except ParseError Snapshot :=
  (PositionIndex.build text).map (Snapshot.mk text)

/-- Verifies a text against the snapshot. -/
def verify (s : Snapshot) (selectors : List Selector) (test : String) : Verdict :=
  match compareTexts selectors s.text test with
  | .same => .valid
  | .malformed cause => .malformed cause
  | .different differences =>
    match Finding.project s.index differences with
    | [] => .valid
    | f :: fs => .invalid (f :: fs)

end Snapshot

/-- Verifies a test text against a control text with the standard selectors. A blank text on
either side is valid: there is nothing to compare yet. -/
def verify (control test : String) : Verdict :=
  if Text.isBlankText control || Text.isBlankText test then .valid
  else
    match Snapshot.ofText control with
    | .error error => .malformed ⟨.control, error⟩
    | .ok snapshot => snapshot.verify Selector.standard test

/-- Verifies a test text against a control text with some selectors. Here the control text has to
be a document, even if it or the test text is blank. -/
def verifyWith (selectors : List Selector) (control test : String) : Except ParseError Verdict :=
  (Snapshot.ofText control).map fun snapshot => snapshot.verify selectors test

end XmlCompare
