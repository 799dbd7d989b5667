import XmlCompare.Reading
import XmlCompare.Text.Cut
import XmlCompare.Text.Numeral

/-!
# Switches on a command line

An argument that begins with a hyphen and is longer than that carries switches: one by its long
name behind two hyphens, or several by their letters behind one. A switch may take a value, which
is written behind an equals sign, directly behind the letter, or as the next argument; the next
argument is not taken if it looks like a switch itself. Two hyphens alone end the switches. All
other arguments are operands.
-/

set_option autoImplicit false

namespace XmlCompare.Command

/-- What a switch takes with it. -/
inductive Takes
  | nothing
  | text
  | number
  deriving DecidableEq, Repr

/-- A switch that a command knows. -/
structure Switch where
  long : String
  letter : Option Char
  takes : Takes
  /-- The switch may be given more than once. -/
  repeatable : Bool
  deriving DecidableEq, Repr

/-- What an argument was read as. -/
inductive Item
  | switch (switch : Switch) (value : String)
  | operand (value : String)
  deriving DecidableEq, Repr

/-- Why a command line cannot be used. -/
inductive UsageFault
  | noCommand
  | unknownCommand (name : String)
  | unknownSwitch (written : String)
  | missingValue (switch : String)
  | unexpectedValue (switch : String)
  | invalidNumber (switch value : String)
  | repeatedSwitch (switch : String)
  | unexpectedOperand (value : String)
  | missingOperand
  | missingSwitch (switch : String)
  | conflict (first second : String)
  deriving DecidableEq, Repr

/-- What is said about arguments that cannot be read. -/
def UsageFault.message : UsageFault → String
  | .noCommand => "a command is required"
  | .unknownCommand name => "unrecognized command '" ++ name ++ "'"
  | .unknownSwitch written => "unexpected argument '" ++ written ++ "'"
  | .missingValue name => "a value is required for '--" ++ name ++ "'"
  | .unexpectedValue name => "'--" ++ name ++ "' takes no value"
  | .invalidNumber name value => "invalid value '" ++ value ++ "' for '--" ++ name ++ "'"
  | .repeatedSwitch name => "'--" ++ name ++ "' cannot be used multiple times"
  | .unexpectedOperand value => "unexpected argument '" ++ value ++ "'"
  | .missingOperand => "a file is required"
  | .missingSwitch name => "'--" ++ name ++ "' is required"
  | .conflict first second => "'--" ++ first ++ "' cannot be used with '--" ++ second ++ "'"

/-- An argument that carries switches. -/
def looksLikeSwitch (argument : String) : Bool :=
  match argument.toList with
  | '-' :: _ :: _ => true
  | _ => false

/-- A switch with its value, which has to be a number if the switch takes one. -/
def withValue (s : Switch) (value : String) : Except UsageFault Item :=
  if s.takes = .number ∧ (Text.natural? value.toList).isNone then
    .error (.invalidNumber s.long value)
  else .ok (.switch s value)

/-- How the letters behind a hyphen end. -/
inductive LettersEnd
  | complete
  | unknown (letter : Char)
  | value (switch : Switch) (value : List Char)
  | needsValue (switch : Switch)
  deriving DecidableEq, Repr

/-- The switches that take no value among the letters behind a hyphen, up to the end or to the
first letter that is of another kind. -/
def readLetters (known : List Switch) : List Char → List Switch × LettersEnd
  | [] => ([], .complete)
  | c :: cs =>
    match known.find? (·.letter = some c) with
    | none => ([], .unknown c)
    | some s =>
      if s.takes = .nothing then
        let (more, ending) := readLetters known cs
        (s :: more, ending)
      else
        match cs with
        | [] => ([], .needsValue s)
        | '=' :: value => ([], .value s value)
        | value => ([], .value s value)

/-- Puts an item, or the fault that came instead, in front of a reading. -/
def consItem (item : Except UsageFault Item) (rest : Reading Item UsageFault) :
    Reading Item UsageFault :=
  match item with
  | .error fault => .failed fault
  | .ok item => .item item rest

/-- Reads arguments one after the other. -/
def readItems (known : List Switch) : List String → Reading Item UsageFault
  | [] => .done
  | argument :: rest =>
    match argument.toList with
    | ['-', '-'] => (Reading.done).prepend (rest.map Item.operand)
    | '-' :: '-' :: body =>
      let (name, value) :=
        match Text.cutAt '=' body with
        | some (name, value) => (String.ofList name, some (String.ofList value))
        | none => (String.ofList body, none)
      match known.find? (·.long = name) with
      | none => .failed (.unknownSwitch argument)
      | some s =>
        match s.takes, value with
        | .nothing, none => .item (.switch s "") (readItems known rest)
        | .nothing, some _ => .failed (.unexpectedValue s.long)
        | _, some value => consItem (withValue s value) (readItems known rest)
        | _, none =>
          match rest with
          | [] => .failed (.missingValue s.long)
          | value :: rest =>
            if looksLikeSwitch value then .failed (.missingValue s.long)
            else consItem (withValue s value) (readItems known rest)
    | '-' :: c :: cs =>
      let (switches, ending) := readLetters known (c :: cs)
      Reading.prepend (switches.map (Item.switch · "")) <|
        match ending with
        | .complete => readItems known rest
        | .unknown _ => .failed (.unknownSwitch argument)
        | .value s value => consItem (withValue s (String.ofList value)) (readItems known rest)
        | .needsValue s =>
          match rest with
          | [] => .failed (.missingValue s.long)
          | value :: rest =>
            if looksLikeSwitch value then .failed (.missingValue s.long)
            else consItem (withValue s value) (readItems known rest)
    | _ => .item (.operand argument) (readItems known rest)

end XmlCompare.Command
