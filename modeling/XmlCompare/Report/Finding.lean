import XmlCompare.Compare.Difference
import XmlCompare.Document.Index

/-!
# Findings

A finding is a difference brought to the lines of the control text. `Finding.project` makes
findings of those differences that call for an action: the number of children is passed over,
since every child that is missing or extra is there by itself, and so is what is addressed at the
document element. Of findings with the same details only the first is kept.
-/

set_option autoImplicit false

namespace XmlCompare

/-- Something to be changed on some lines. -/
structure Finding where
  firstLine : Nat
  lastLine : Nat
  /-- What the lines should come to: the value of the test side. -/
  message : String
  /-- What tells a finding from others. -/
  details : String
  deriving DecidableEq, Repr, Inhabited

namespace Finding

/-- The lines that a finding is about. -/
def lines (f : Finding) : LineRange := .between f.firstLine f.lastLine

/-- A finding as it is listed. -/
def text (f : Finding) : String :=
  "lines " ++ toString f.firstLine ++ "-" ++ toString f.lastLine ++ ": " ++ f.message ++ " ("
    ++ f.details ++ ")"

/-- What is said about a difference apart from its place. -/
def detailsOf (d : Difference) : String :=
  "Control: " ++ showValue d.control ++ " => Test: " ++ showValue d.test ++ " | Context: Class: "
    ++ d.parentTag ++ ", Property: " ++ d.propertyTag

/-- The finding that a difference calls for, if it calls for one and its path leads to lines. -/
def ofDifference? (index : PositionIndex) (d : Difference) : Option Finding :=
  if d.kind = .childCount || d.path.isDocumentElement then none
  else (index.get? d.path).map fun lines =>
    ⟨lines.first, lines.last, showValue d.test, detailsOf d⟩

/-- Keeps the first of the findings with the same details; `seen` holds the details that came
before. -/
def distinct (seen : List String) : List Finding → List Finding
  | [] => []
  | f :: rest =>
    if seen.contains f.details then distinct seen rest
    else f :: distinct (f.details :: seen) rest

/-- The findings of some differences, in their order. -/
def project (index : PositionIndex) (differences : List Difference) : List Finding :=
  distinct [] (differences.filterMap (ofDifference? index))

end Finding

end XmlCompare
