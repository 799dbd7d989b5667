import XmlCompare.Path.Basic
import XmlCompare.Text.Cut
import XmlCompare.Text.Numeral

/-!
# The text form of a path

A step is written as its name with the ordinal in brackets, every step after a slash, and the
document's path as a slash alone. Reading accepts every text of that form whose names are not
empty and whose ordinals are positive; of a name only the local part is kept.
-/

set_option autoImplicit false

namespace XmlCompare

/-- The step of a text that could not be read, or the whole text if it begins with no slash. -/
structure InvalidPath where
  step : String
  deriving DecidableEq, Repr

/-- What is said about a text that is no path. -/
def InvalidPath.message (e : InvalidPath) : String :=
  "invalid positional path step `" ++ e.step ++ "`"

namespace Step

/-- A step as it is written, without the slash before it. -/
def chars (s : Step) : List Char :=
  s.name.toList ++ '[' :: Nat.toDigits 10 s.ordinal ++ [']']

/-- The step that some characters spell: a name and an ordinal in brackets. -/
def ofChars? (raw : List Char) : Option Step := do
  let (name, rest) ← Text.cutAt '[' raw
  let digits ← Text.dropEnd? ']' rest
  let ordinal ← Text.natural? digits
  if ordinal = 0 ∨ name.isEmpty then none
  else some ⟨Name.localPart (String.ofList name), ordinal⟩

end Step

namespace Path

/-- A path as it is written. -/
def chars (p : Path) : List Char :=
  if p.steps.isEmpty then ['/'] else p.steps.flatMap fun s => '/' :: s.chars

/-- The path as it is written. -/
def text (p : Path) : String := String.ofList p.chars

/-- Reads the steps that stand between slashes; the first that cannot be read is reported. -/
def stepsOfChars : List (List Char) → Except InvalidPath (List Step)
  | [] => .ok []
  | raw :: rest =>
    match Step.ofChars? raw with
    | none => .error ⟨String.ofList raw⟩
    | some step => (stepsOfChars rest).map (step :: ·)

/-- Reads a text as a path. -/
def parse (s : String) : Except InvalidPath Path :=
  match s.toList with
  | '/' :: body =>
    if body.isEmpty then .ok document
    else (stepsOfChars (body.splitOn '/')).map Path.mk
  | _ => .error ⟨s⟩

end Path

end XmlCompare
