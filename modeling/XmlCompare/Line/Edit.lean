import XmlCompare.Line.Split

/-!
# Replacing and removing lines

An edit addresses lines by number and fails when one of them is outside the text. A replacement
takes the place of whole lines: it is given a line feed at its end if the lines it replaces had
one and it has none. An empty replacement removes the lines; when the last line of a text without
a final line feed goes, the line feed before it goes too.
-/

set_option autoImplicit false

namespace XmlCompare.Line

/-- An edit addressed lines outside the text, which has `count` lines. -/
structure RangeFault where
  first : Nat
  last : Nat
  count : Nat
  deriving DecidableEq, Repr

/-- What is said about a range of lines that a text does not have. -/
def RangeFault.message (f : RangeFault) : String :=
  "line range " ++ toString f.first ++ "-" ++ toString f.last ++ " is outside a document of "
    ++ toString f.count ++ " lines"

/-- A text that ends with a line feed. -/
def endsLine (cs : List Char) : Bool := cs.getLast? = some '\n'

/-- What stands before the following lines once the addressed lines are replaced: `before` is
what precedes them, and `closed` tells whether the text has a line feed behind them. -/
def patch (before replacement : List Char) (closed : Bool) : List Char :=
  if replacement.isEmpty then
    if !closed && endsLine before then before.dropLast else before
  else if closed && !endsLine replacement then before ++ replacement ++ ['\n']
  else before ++ replacement

/-- Replaces the lines from `first` to `last` of a text. -/
def replaceChars (cs : List Char) (first last : Nat) (replacement : List Char) :
    Except RangeFault (List Char) :=
  let all := fullLines cs
  if first = 0 ∨ first > last ∨ last > all.length then .error ⟨first, last, all.length⟩
  else
    let closed := last < all.length || endsLine cs
    .ok (patch (all.take (first - 1)).flatten replacement closed ++ (all.drop last).flatten)

/-- Replaces the lines from `first` to `last` of a string. -/
def replaceLines (text : String) (first last : Nat) (replacement : String) :
    Except RangeFault String :=
  (replaceChars text.toList first last replacement.toList).map String.ofList

/-- Takes some lines out of a text. -/
def removeLines (text : String) (first last : Nat) : Except RangeFault String :=
  replaceLines text first last ""

end XmlCompare.Line
