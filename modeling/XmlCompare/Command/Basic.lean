import XmlCompare.Command.Switch
import XmlCompare.Document.Printer

/-!
# Commands

A command line names a command and gives it operands and switches. `Request.ofArguments` reads one
from left to right: the first thing that is wrong counts, and a call for help that comes before it
is answered.
-/

set_option autoImplicit false

namespace XmlCompare

/-- A command with everything it needs. -/
inductive Command
  | index (file : String) (path : Option String)
  | diff (control test : String)
  | report (control test : String) (blocks : Bool)
  | format (file : String) (output : Option String) (options : PrintOptions)
  | replace (file : String) (first last : Nat) (replacement : String) (output : Option String)
  | remove (file : String) (first last : Nat) (output : Option String)
  deriving DecidableEq, Repr

/-- What a command line asks for. -/
inductive Request
  | help
  | version
  | command (command : Command)
  deriving DecidableEq, Repr

namespace Command

/-- Asks for the help text, with any command. -/
def helpSwitch : Switch := ⟨"help", some 'h', .nothing, true⟩

/-- Asks for the version, with any command. -/
def versionSwitch : Switch := ⟨"version", some 'V', .nothing, true⟩

/-- Asks for more to be logged, with any command. -/
def verboseSwitch : Switch := ⟨"verbose", some 'v', .nothing, true⟩

/-- Names the file that is to be written. -/
def outputSwitch : Switch := ⟨"output", some 'o', .text, false⟩

/-- What a command is called, how many operands it takes, and which switches it knows. -/
structure Form where
  name : String
  abbreviation : Option String
  operands : Nat
  switches : List Switch
  deriving DecidableEq, Repr

/-- The commands. -/
def forms : List Form :=
  [⟨"index", some "i", 1, [⟨"path", some 'p', .text, false⟩]⟩,
   ⟨"diff", some "d", 2, []⟩,
   ⟨"report", some "r", 2, [⟨"blocks", some 'b', .nothing, false⟩]⟩,
   ⟨"format", some "f", 1,
     [outputSwitch, ⟨"indent", none, .number, false⟩,
      ⟨"namespaces-on-new-line", none, .nothing, false⟩]⟩,
   ⟨"fix", none, 1,
     [⟨"start", some 's', .number, false⟩, ⟨"end", some 'e', .number, false⟩,
      ⟨"with", none, .text, false⟩, ⟨"remove", none, .nothing, false⟩, outputSwitch]⟩]

/-- What has been given to a command: its operands in order, and its switches by long name. -/
structure Given where
  operands : List String
  switches : List (String × String)
  deriving DecidableEq, Repr

namespace Given

/-- What was given with the switch of a long name, if the switch was given. -/
def value? (g : Given) (long : String) : Option String := g.switches.lookup long

/-- The switch of a long name was given. -/
def has (g : Given) (long : String) : Bool := (g.value? long).isSome

/-- The value of a switch that takes a number. -/
def number? (g : Given) (long : String) : Option Nat :=
  (g.value? long).bind fun value => Text.natural? value.toList

end Given

/-- Collects what a command is given, or nothing if help is asked for on the way. At most `limit`
operands may come, and a switch only once unless it is repeatable. -/
def collect (limit : Nat) (given : Given) :
    Reading Item UsageFault → Except UsageFault (Option Given)
  | .done => .ok (some given)
  | .failed fault => .error fault
  | .item (.operand value) rest =>
    if given.operands.length < limit then
      collect limit { given with operands := given.operands ++ [value] } rest
    else .error (.unexpectedOperand value)
  | .item (.switch s value) rest =>
    if s = helpSwitch then .ok none
    else if given.has s.long && !s.repeatable then .error (.repeatedSwitch s.long)
    else collect limit { given with switches := given.switches ++ [(s.long, value)] } rest

/-- The value of a switch that must be given. -/
def require (value : Option Nat) (long : String) : Except UsageFault Nat :=
  match value with
  | some n => .ok n
  | none => .error (.missingSwitch long)

/-- The command of a name with what it is given. -/
def ofGiven (name : String) (g : Given) : Except UsageFault Command :=
  match name, g.operands with
  | "index", [file] => .ok (.index file (g.value? "path"))
  | "diff", [control, test] => .ok (.diff control test)
  | "report", [control, test] => .ok (.report control test (g.has "blocks"))
  | "format", [file] =>
    .ok (.format file (g.value? "output")
      { indent := (g.number? "indent").getD 2
        declarationsOnNewLine := g.has "namespaces-on-new-line" })
  | "fix", [file] => do
    let first ← require (g.number? "start") "start"
    let last ← require (g.number? "end") "end"
    match g.value? "with", g.has "remove" with
    | some _, true => throw (.conflict "with" "remove")
    | some replacement, false => return .replace file first last replacement (g.value? "output")
    | none, true => return .remove file first last (g.value? "output")
    | none, false => throw (.missingSwitch "with")
  | _, _ => .error .missingOperand

/-- The first call for help or for the version among the switches before a command. -/
def leading? : Reading Item UsageFault → Except UsageFault (Option Request)
  | .done => .ok none
  | .failed fault => .error fault
  | .item (.operand value) _ => .error (.unexpectedOperand value)
  | .item (.switch s _) rest =>
    if s = helpSwitch then .ok (some .help)
    else if s = versionSwitch then .ok (some .version)
    else leading? rest

end Command

namespace Request

open Command

/-- The command that has a name or an abbreviation. -/
def form? (name : String) : Option Form :=
  forms.find? fun form => form.name = name || form.abbreviation = some name

/-- Answers a call for help that may name a command, or help itself, and nothing behind it. -/
def helpOn (names : List String) : Except UsageFault Request :=
  match names with
  | [] => .ok .help
  | name :: rest =>
    if name ≠ "help" ∧ (form? name).isNone then .error (.unknownCommand name)
    else
      match rest with
      | [] => .ok .help
      | extra :: _ => .error (.unknownCommand extra)

/-- What a list of arguments asks for. Before the command there may be only switches that are
known to all commands, and the one for the version. -/
def ofArguments (arguments : List String) : Except UsageFault Request := do
  let leading := arguments.takeWhile looksLikeSwitch
  match ← leading? (readItems [verboseSwitch, helpSwitch, versionSwitch] leading) with
  | some request => return request
  | none =>
    if leading.contains "--" then throw .noCommand
    match arguments.dropWhile looksLikeSwitch with
    | [] => throw .noCommand
    | "help" :: names => helpOn names
    | name :: rest =>
      match form? name with
      | none => throw (.unknownCommand name)
      | some form =>
        let items := readItems (verboseSwitch :: helpSwitch :: form.switches) rest
        match ← collect form.operands ⟨[], []⟩ items with
        | none => return .help
        | some given => return .command (← ofGiven form.name given)

end Request

end XmlCompare
